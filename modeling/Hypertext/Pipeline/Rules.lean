/-
The two processors that come with the library. An attribute rule sets or
deletes one attribute of the elements its selectors match, when they start.

An element rule takes elements out, or takes out all but some. It works inside
a scope: an element that its `within` selectors match, or any at all where it
has none, and the next such once that has ended. The elements its selectors
match it removes; or it keeps them, whole and with all around them up to the
scope, and removes everything else there.
-/
import Hypertext.Pipeline.Basic

namespace Hypertext.Pipeline

open Markup
open Selector (Unsupported)

inductive AttributeAction where
  | add
  | delete
  deriving DecidableEq, Repr

structure AttributeRule where
  selectors : List Selector
  action : AttributeAction
  attr : Attribute
  deriving DecidableEq, Repr

def AttributeRule.started (r : AttributeRule) (t : Tree) (id : NodeId) : Except Unsupported Tree :=
  (Selector.anyMatches t id r.selectors).map fun found =>
    if found then
      match r.action with
      | .add => t.modifyAttributes id (·.insert r.attr)
      | .delete => t.modifyAttributes id (·.erase r.attr.name)
    else t

inductive ElementAction where
  | remove
  | removeOthers
  deriving DecidableEq, Repr

structure ElementRule where
  selectors : List Selector
  action : ElementAction
  within : Option (List Selector) := none
  deriving DecidableEq, Repr

/-- Where in the document an element rule is at work. -/
structure Focus where
  /-- The element inside which the rule works. -/
  scope : Option NodeId := none
  /-- The element under way that is kept whole. -/
  kept : Option NodeId := none
  /-- What was between the last element kept and its scope when it started. -/
  path : List NodeId := []
  deriving DecidableEq, Repr

namespace ElementRule

/-- The focus once an element starts that may open a scope. -/
def enter (r : ElementRule) (t : Tree) (f : Focus) (id : NodeId) : Except Unsupported Focus :=
  match f.scope, r.within with
  | some _, _ => .ok f
  | none, none => .ok { f with scope := some id }
  | none, some selectors =>
    (Selector.anyMatches t id selectors).map fun found =>
      if found then { f with scope := some id } else f

/-- What happens to an element that the selectors match. -/
def found (r : ElementRule) (t : Tree) (f : Focus) (scope id : NodeId) : Tree × Focus :=
  match r.action, f.kept with
  | .remove, _ => (t.remove id, f)
  | .removeOthers, some _ => (t, f)
  | .removeOthers, none =>
    (t, { f with kept := some id, path := (t.ancestors id).takeWhile (· ≠ scope) })

def started (r : ElementRule) (t : Tree) (f : Focus) (id : NodeId) :
    Except Unsupported (Tree × Focus) :=
  match r.enter t f id with
  | .error u => .error u
  | .ok f =>
    match f.scope with
    | none => .ok (t, f)
    | some scope =>
      (Selector.anyMatches t id r.selectors).map fun found =>
        if found then r.found t f scope id else (t, f)

def ended (r : ElementRule) (t : Tree) (f : Focus) (id : NodeId) : Tree × Focus :=
  if f.scope = some id then (t, {})
  else if f.scope.isNone ∨ r.action = .remove then (t, f)
  else if f.kept = some id then (t, { f with kept := none })
  else if f.kept.isNone ∧ id ∉ f.path then (t.remove id, f)
  else (t, f)

def text (r : ElementRule) (t : Tree) (f : Focus) (id : NodeId) : Tree :=
  if f.scope.isSome ∧ f.kept.isNone ∧ r.action = .removeOthers then t.remove id else t

end ElementRule

/-- A processor that a configuration can ask for. -/
inductive Rule where
  | attr (r : AttributeRule)
  | element (r : ElementRule)
  deriving DecidableEq, Repr

/-- One event, as a rule takes it. -/
def Rule.step (event : Event) (t : Tree) (f : Focus) : Rule → Except Unsupported (Tree × Focus)
  | .attr r =>
    match event.kind with
    | .elementStarted => (r.started t event.node).map (·, f)
    | .elementEnded | .textCreated => .ok (t, f)
  | .element r =>
    match event.kind with
    | .elementStarted => r.started t f event.node
    | .elementEnded => .ok (r.ended t f event.node)
    | .textCreated => .ok (r.text t f event.node, f)

def Rule.processor {ω : Type} (r : Rule) : Processor Focus ω where
  reset := fun (_, memory) => ({}, memory)
  react event scene :=
    match r.step event scene.tree scene.state with
    | .ok (tree, state) => ({ scene with tree, state }, none)
    | .error reason => (scene, some (.selector reason))

def pipeRule {ω : Type} (p : Pipeline Focus ω) (r : Rule) : Pipeline Focus ω :=
  p.pipe r.processor {}

def ofRules {ω : Type} (rules : List Rule) : Pipeline Focus ω :=
  rules.foldl pipeRule {}

end Hypertext.Pipeline
