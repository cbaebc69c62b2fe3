/-
Processors for looking into a pipeline: one that does nothing, one that writes
down all it is told, one that puts texts in brackets, one that fails at the
end of an element.
-/
import Hypertext.Markup.Edit
import Hypertext.Pipeline.Basic

namespace Hypertext.Pipeline

open Markup

inductive Record where
  | reset
  | saw (sighting : Sighting)
  deriving DecidableEq, Repr

inductive Probe where
  | noop
  | recorder
  | brackets
  | fail (tag : String)
  deriving DecidableEq, Repr

/-- Puts a text that has a parent in brackets, by way of a new text in its place. -/
def bracket (t : Tree) (id : NodeId) : Tree :=
  match t.parent? id, t.text? id with
  | some parent, some s =>
    let (new, t) := t.create (.text ("[" ++ s ++ "]"))
    (orUnchanged t (t.insertBefore parent new id)).remove id
  | _, _ => t

def Probe.processor {σ : Type} : Probe → Processor σ (List Record)
  | .noop => {}
  | .recorder =>
    { reset := fun (state, log) => (state, log ++ [.reset])
      react := fun event scene =>
        ({ scene with memory := scene.memory ++ [.saw (.of scene.tree event)] }, none) }
  | .brackets =>
    { react := fun event scene =>
        match event.kind with
        | .textCreated => ({ scene with tree := bracket scene.tree event.node }, none)
        | _ => (scene, none) }
  | .fail tag =>
    { react := fun event scene =>
        if event.kind = .elementEnded ∧ scene.tree.tag? event.node = some tag then
          (scene, some (.unknownProcessor tag))
        else (scene, none) }

end Hypertext.Pipeline
