/-
Whether a node matches a selector. From the subject on, compounds are looked
for along the ancestors: at the parent for `>`, at the nearest ancestor that
satisfies the compound for white space. A choice once made stays made.

Two comparisons are read but have no meaning here. Where one is reached, on an
element that has the attribute, there is no answer but an error.
-/
import Hypertext.Tree.Basic
import Hypertext.Selector.Basic

namespace Hypertext.Selector

structure Unsupported where
  comparison : Comparison
  name : String
  deriving DecidableEq, Repr

def Unsupported.message (u : Unsupported) : String :=
  "attribute operator " ++ u.comparison.symbol ++ " in [" ++ u.name ++ u.comparison.symbol ++
    "...] is not supported"

abbrev Answer := Except Unsupported Bool

/-- Whether one text stands somewhere in another. -/
def occursIn (part : List Char) : List Char → Bool
  | [] => part.isEmpty
  | c :: cs => part.isPrefixOf (c :: cs) || occursIn part cs

/-- An expected value that is empty is equal to all. -/
def Comparison.holds? (expected value : String) : Comparison → Option Bool
  | .equals => some (expected = "" || value = expected)
  | .startsWith => some (expected.toList.isPrefixOf value.toList)
  | .contains => some (occursIn expected.toList value.toList)
  | .endsWith => some (expected.toList.isSuffixOf value.toList)
  | .includesWord | .dashMatch => none

def AttributeTest.matches (attributes : Attributes) (test : AttributeTest) : Answer :=
  match attributes.get? test.name with
  | none => .ok false
  | some value =>
    match test with
    | .present _ => .ok true
    | .compare name comparison expected =>
      match comparison.holds? expected value with
      | some holds => .ok holds
      | none => .error ⟨comparison, name⟩

def Simple.matches (e : Element) : Simple → Answer
  | .tag name => .ok (e.tag = name)
  | .universal => .ok true
  | .hasClass word => .ok (e.attributes.classes.contains word)
  | .hasId value => .ok (e.attributes.get? "id" = some value)
  | .hasAttribute test => test.matches e.attributes

/-- Whether every condition holds. The first that does not settles it. -/
def allMatch (e : Element) : Compound → Answer
  | [] => .ok true
  | s :: rest =>
    match s.matches e with
    | .ok true => allMatch e rest
    | other => other

/-- Whether a node is an element that satisfies a compound. -/
def Compound.matches (t : Tree) (compound : Compound) (id : NodeId) : Answer :=
  match t.element? id with
  | none => .ok false
  | some e => allMatch e compound

/-- Whether a chain is found along a list of ancestors, the nearest first. -/
def climb (t : Tree) : List (Combinator × Compound) → List NodeId → Answer
  | [], _ => .ok true
  | _ :: _, [] => .ok false
  | (combinator, compound) :: chain, id :: rest =>
    match Compound.matches t compound id, combinator with
    | .error e, _ => .error e
    | .ok true, _ => climb t chain rest
    | .ok false, .descendant => climb t ((combinator, compound) :: chain) rest
    | .ok false, .child => .ok false

end Hypertext.Selector

namespace Hypertext

open Selector (Answer)

/-- Whether a node matches a selector. -/
def Selector.matches (t : Tree) (s : Selector) (id : NodeId) : Answer :=
  match Selector.Compound.matches t s.subject id with
  | .ok true => Selector.climb t s.chain (t.ancestors id)
  | other => other

/-- Whether a node matches one of several selectors, asked in order until one says yes. -/
def Selector.anyMatches (t : Tree) (id : NodeId) : List Selector → Answer
  | [] => .ok false
  | s :: rest =>
    match s.matches t id with
    | .ok false => anyMatches t id rest
    | other => other

end Hypertext
