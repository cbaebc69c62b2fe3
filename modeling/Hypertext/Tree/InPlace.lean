/-
Mutations as an arena carries them out in place. A node has to be there to be
read or changed. Appending makes its wrappers one by one and appends each of
them, by calling itself, before it moves the child; inserting looks its
reference up again once the node has been taken out. A call that halts leaves
what has been written by then.
-/
import Hypertext.Tree.Insertion

namespace Hypertext.Tree.InPlace

/-- What ends a call before it has an answer. -/
inductive Halt where
  | refused (e : InsertError)
  /-- The arena has no such node to read or change. -/
  | missing (id : NodeId)
  /-- Appending has called itself more often than it may. -/
  | exhausted
  deriving DecidableEq, Repr

/-- A call on an arena. It has an answer or halts, and leaves an arena either way. -/
abbrev Call (α : Type) := ExceptT Halt (StateM Tree) α

def Call.on {α : Type} (call : Call α) (t : Tree) : Except Halt α × Tree :=
  (ExceptT.run call).run t

/-! ## Single nodes -/

def fetch (id : NodeId) : Call Node := do
  match (← get).node? id with
  | some n => return n
  | none => throw (.missing id)

def alter (id : NodeId) (f : Node → Node) : Call Unit := do
  let _ ← fetch id
  set ((← get).modify id f)

def create (content : Content) : Call NodeId := do
  let (id, t) := (← get).create content
  set t
  return id

/-! ## Links -/

def check (parent child : NodeId) : Call Unit := do
  match (← get).misplacement? parent child with
  | some reason => throw (.refused (.misplaced parent child reason))
  | none => return

def remove (id : NodeId) : Call Unit := do
  match (← get).parent? id with
  | none => return
  | some parent =>
    alter parent fun n => { n with children := n.children.filter (· ≠ id) }
    alter id fun n => { n with parent := none }

/-- Moves the node to `parent`, whose other children `place` arranges with it. -/
def move (parent child : NodeId) (place : List NodeId → Call (List NodeId)) : Call NodeId := do
  remove child
  let children ← place (← fetch parent).children
  alter parent fun n => { n with children }
  alter child fun n => { n with parent := some parent }
  return child

/-! ## Insertions -/

def placeLast (child : NodeId) (children : List NodeId) : Call (List NodeId) :=
  return children ++ [child]

def placeBefore (parent node reference : NodeId) (children : List NodeId) : Call (List NodeId) :=
  match children.idxOf? reference with
  | none => throw (.refused (.notAChild parent reference))
  | some place => return children.insertIdx place node

section Shelter

variable (appendTo : NodeId → NodeId → Call NodeId)

/-- Makes a wrapper and appends it, where one is needed. -/
def raise (needed : Bool) (parent : NodeId) (tag : String) : Call NodeId := do
  if needed then
    appendTo parent (← create (.element (.ofTag tag)))
  else
    return parent

/-- Where an element called `tag` goes, once the wrappers it needs are there. -/
def shelter (parent : NodeId) (tag : String) : Call NodeId := do
  if parent = root ∧ (← get).documentElement?.isSome then
    throw (.refused .secondRoot)
  let parent ← raise appendTo (parent = root ∧ tag ≠ "HTML") parent "HTML"
  raise appendTo ((← get).tag? parent = some "HTML" ∧ tag ≠ "HEAD" ∧ tag ≠ "BODY") parent "BODY"

end Shelter

def append : Nat → NodeId → NodeId → Call NodeId
  | 0, _, _ => throw .exhausted
  | fuel + 1, parent, child => do
    check parent child
    let parent ← match (← get).tag? child with
      | none => pure parent
      | some tag => shelter (append fuel) parent tag
    move parent child (placeLast child)

def insertBefore (parent node reference : NodeId) : Call NodeId := do
  check parent node
  if reference ∉ (← get).children parent then
    throw (.refused (.notAChild parent reference))
  if node = reference then
    return node
  move parent node (placeBefore parent node reference)

/-- The call leaves what a mutation says, and answers with the node; or it is refused, and all is as
it was before. -/
def settled (t : Tree) (id : NodeId) : Except InsertError Tree → Except Halt NodeId × Tree
  | .ok t' => (.ok id, t')
  | .error e => (.error (.refused e), t)

end Hypertext.Tree.InPlace
