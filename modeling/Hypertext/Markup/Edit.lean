/-
Observers given as data: an edit to make at each event of a kind, perhaps only
on nodes of one name, and a log of what was seen.
-/
import Hypertext.Markup.Growth

namespace Hypertext.Markup

inductive Edit where
  | remove
  | removeParent
  | setAttribute (name value : String)
  | eraseAttribute (name : String)
  | addClass (word : String)
  | appendText (s : String)
  | appendElement (tag : String)
  | insertElementBefore (tag : String)
  | moveToRoot
  | nothing
  deriving DecidableEq, Repr

/-- The tree after an insertion that may fail, which then leaves it alone. -/
def orUnchanged (t : Tree) : Except InsertError Tree → Tree
  | .ok t => t
  | .error _ => t

def Edit.apply (t : Tree) (id : NodeId) : Edit → Tree
  | .remove => t.remove id
  | .removeParent =>
    match t.parent? id with
    | some parent => t.remove parent
    | none => t
  | .setAttribute name value => t.modifyAttributes id (·.set name value)
  | .eraseAttribute name => t.modifyAttributes id (·.erase name)
  | .addClass word => t.modifyAttributes id (·.addClasses [word])
  | .appendText s =>
    let (new, t) := t.create (.text s)
    orUnchanged t (t.append id new)
  | .appendElement tag =>
    let (new, t) := t.create (.element (.ofTag tag))
    orUnchanged t (t.append id new)
  | .insertElementBefore tag =>
    match t.parent? id with
    | some parent =>
      let (new, t) := t.create (.element (.ofTag tag))
      orUnchanged t (t.insertBefore parent new id)
    | none => t
  | .moveToRoot => orUnchanged t (t.append Tree.root id)
  | .nothing => t

structure EditRule where
  kind : EventKind
  /-- The name of the nodes to edit; `none` for all. -/
  name : Option String := none
  edit : Edit

def EditRule.observer {ω : Type} (rule : EditRule) : Observer ω := fun event (t, memory) =>
  if event.kind = rule.kind ∧ (rule.name.isNone ∨ t.name? event.node = rule.name) then
    (rule.edit.apply t event.node, memory)
  else (t, memory)

/-- A node as it was when its event came. -/
structure Sighting where
  event : Event
  name : Option String
  parent : Option NodeId
  deriving DecidableEq, Repr

def Sighting.of (t : Tree) (event : Event) : Sighting :=
  ⟨event, t.name? event.node, t.parent? event.node⟩

/-- Writes down every event. -/
def logger : Observer (List Sighting) := fun event (t, log) =>
  (t, log ++ [.of t event])

end Hypertext.Markup
