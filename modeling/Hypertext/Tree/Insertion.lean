/-
Moving nodes: attaching, inserting before a sibling, removing. A node cannot
come under itself or its descendants, nor under a text; the document comes
under nothing.

An element appended to the document is sheltered: below the document only an
`HTML` element can stand, and below `HTML` only `HEAD` and `BODY`, so elements
of other names get those wrappers, made for them.
-/
import Hypertext.Tree.Basic

namespace Hypertext

inductive Misplacement where
  | unknownNode
  | underText
  | documentAsChild
  | cycle
  deriving DecidableEq, Repr

def Misplacement.reason : Misplacement → String
  | .unknownNode => "unknown node"
  | .underText => "text nodes cannot have children"
  | .documentAsChild => "the document cannot be a child"
  | .cycle => "a node cannot contain its own ancestor"

inductive InsertError where
  | misplaced (parent child : NodeId) (reason : Misplacement)
  | notAChild (parent child : NodeId)
  | secondRoot
  deriving DecidableEq, Repr

def NodeId.show (id : NodeId) : String :=
  "NodeId(" ++ toString id.index ++ ")"

def InsertError.message : InsertError → String
  | .misplaced parent child reason =>
    "cannot insert " ++ child.show ++ " under " ++ parent.show ++ ": " ++ reason.reason
  | .notAChild parent child =>
    "child " ++ child.show ++ " couldn't be found under " ++ parent.show
  | .secondRoot => "document can only have one child element"

namespace Tree

/-- What keeps `child` from coming under `parent`, if anything does. -/
def misplacement? (t : Tree) (parent child : NodeId) : Option Misplacement :=
  match t.content? parent, t.content? child with
  | none, _ | _, none => some .unknownNode
  | some (.text _), _ => some .underText
  | _, some .document => some .documentAsChild
  | _, _ => if parent = child ∨ t.isDescendant parent child then some .cycle else none

/-- The tree with the node taken out of its parent's children. -/
def remove (t : Tree) (id : NodeId) : Tree :=
  match t.parent? id with
  | none => t
  | some parent =>
    (t.modify parent fun n => { n with children := n.children.filter (· ≠ id) }).modify id
      fun n => { n with parent := none }

/-- Makes the node a child of `parent`, whose children `place` then arranges. -/
def link (t : Tree) (parent child : NodeId) (place : List NodeId → List NodeId) : Tree :=
  ((t.remove child).modify parent fun n => { n with children := place n.children }).modify child
    fun n => { n with parent := some parent }

/-- Makes the node the last child of `parent`. -/
def attach (t : Tree) (parent child : NodeId) : Tree :=
  t.link parent child (· ++ [child])

/-- A new element without attributes as the last child of `parent`. -/
def wrapper (t : Tree) (parent : NodeId) (tag : String) : NodeId × Tree :=
  let (id, t) := t.create (.element (.ofTag tag))
  (id, t.attach parent id)

/-- Where an element called `tag` goes when it is appended to `parent`, with the wrappers made for
it: under the document an element other than `HTML` goes into a new `HTML`, and under an `HTML`
one other than `HEAD` and `BODY` goes into a new `BODY`. -/
def shelter (t : Tree) (parent : NodeId) (tag : String) : NodeId × Tree :=
  let (parent, t) :=
    if parent = root ∧ tag ≠ "HTML" then t.wrapper parent "HTML" else (parent, t)
  if t.tag? parent = some "HTML" ∧ tag ≠ "HEAD" ∧ tag ≠ "BODY" then t.wrapper parent "BODY"
  else (parent, t)

def append (t : Tree) (parent child : NodeId) : Except InsertError Tree :=
  match t.misplacement? parent child with
  | some reason => .error (.misplaced parent child reason)
  | none =>
    match t.tag? child with
    | none => .ok (t.attach parent child)
    | some tag =>
      if parent = root ∧ t.documentElement?.isSome then .error .secondRoot
      else
        let (parent, t) := t.shelter parent tag
        .ok (t.attach parent child)

/-- A list with `x` in front of the first `y`. -/
def putBefore (x y : NodeId) : List NodeId → List NodeId
  | [] => []
  | z :: zs => if z = y then x :: z :: zs else z :: putBefore x y zs

/-- Inserts the node in front of a child of `parent`; nothing is wrapped. -/
def insertBefore (t : Tree) (parent node reference : NodeId) : Except InsertError Tree :=
  match t.misplacement? parent node with
  | some reason => .error (.misplaced parent node reason)
  | none =>
    if reference ∉ t.children parent then .error (.notAChild parent reference)
    else if node = reference then .ok t
    else .ok (t.link parent node (putBefore node reference))

end Tree

end Hypertext
