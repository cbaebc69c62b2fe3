/-
Documents that go through one pipeline know nothing of each other. A document
may leave a rule with an open scope or in the middle of an element it keeps,
the later rules behind where another one failed, and the parser inside a tag;
but whatever it does, the processors stay those of the rules
(`Staffed.observer`), and that is all that the next document finds once
everything is reset (`treeOf_eq_fresh`).
-/
import Hypertext.Pipeline.Rules
import Hypertext.Proofs.Markup.Reaching

namespace Hypertext

/-- The parser once it has read documents, one after the other. -/
def Markup.Parser.after (p : Parser) (earlier : List String) : Parser :=
  earlier.foldl (fun p input => (p.parse input).2) p

namespace Pipeline

open Markup

/-- The memory and the pipeline once it has processed documents, one after the other. -/
def after {σ ω : Type} (p : Pipeline σ ω) (memory : ω) (earlier : List String) :
    ω × Pipeline σ ω :=
  earlier.foldl (fun (memory, p) input => (p.process memory input).2) (memory, p)

variable {ω : Type}

/-- The stages apply the rules, in this order; each may be anywhere in its work. -/
def Staffed (rules : List Rule) (stages : List (Stage Focus ω)) : Prop :=
  stages.map (·.processor) = rules.map Rule.processor

/-- The stages of rules that have not seen anything yet. -/
def freshStages (rules : List Rule) : List (Stage Focus ω) :=
  rules.map fun r => ⟨r.processor, {}⟩

section Stages

variable {rules : List Rule} {stages : List (Stage Focus ω)} {r : Rule} {s : Stage Focus ω}

theorem staffed_freshStages (rules : List Rule) : Staffed rules (freshStages rules : List (Stage Focus ω)) := by
  rw [Staffed, freshStages, List.map_map]
  rfl

theorem staffed_nil : Staffed [] stages ↔ stages = [] := by
  rw [Staffed, List.map_nil, List.map_eq_nil_iff]

theorem staffed_cons : Staffed (r :: rules) stages ↔
    ∃ s rest, stages = s :: rest ∧ s.processor = r.processor ∧ Staffed rules rest := by
  rw [Staffed, List.map_cons, List.map_eq_cons_iff]
  rfl

/-- Whatever a document has left of the rules' work, a reset puts them back to the start. -/
theorem Staffed.resetAll (h : Staffed rules stages) (memory : ω) :
    resetAll stages memory = (freshStages rules, memory) := by
  induction rules generalizing stages with
  | nil =>
    rw [staffed_nil.mp h]
    rfl
  | cons r rules ih =>
    obtain ⟨⟨processor, state⟩, rest, rfl, rfl, hrest⟩ := staffed_cons.mp h
    have hreset : (r.processor : Processor Focus ω).reset (state, memory) = ({}, memory) := rfl
    simp only [Pipeline.resetAll, hreset, ih hrest]
    rfl

/-- A rule leaves the memory that all share alone. -/
theorem memory_react (r : Rule) (event : Event) (scene : Scene Focus ω) :
    ((r.processor : Processor Focus ω).react event scene).1.memory = scene.memory := by
  simp only [Rule.processor]
  split <;> rfl

/-- One event, up to the rule that fails if one does. -/
theorem Staffed.relay (h : Staffed rules stages) (event : Event) (t : Tree) (memory : ω) :
    Staffed rules (relay event stages t memory).2.stages ∧
      (relay event stages t memory).2.memory = memory := by
  induction rules generalizing stages t with
  | nil =>
    rw [staffed_nil.mp h]
    exact ⟨rfl, rfl⟩
  | cons r rules ih =>
    obtain ⟨⟨processor, state⟩, rest, rfl, rfl, hrest⟩ := staffed_cons.mp h
    have hmemory := memory_react r event ⟨t, state, memory⟩
    rcases hreact : (r.processor : Processor Focus ω).react event ⟨t, state, memory⟩ with
      ⟨⟨t', state', memory'⟩, failure⟩
    rw [hreact] at hmemory
    obtain rfl : memory' = memory := hmemory
    simp only [Pipeline.relay, hreact]
    cases failure with
    | some e =>
      -- The rules behind the one that fails are not asked.
      exact ⟨staffed_cons.mpr ⟨_, rest, rfl, rfl, hrest⟩, rfl⟩
    | none =>
      obtain ⟨hstages, hmemory⟩ := ih hrest t'
      exact ⟨staffed_cons.mpr ⟨_, _, rfl, rfl, hstages⟩, hmemory⟩

theorem Staffed.observer {run : Run Focus ω} (h : Staffed rules run.stages) (event : Event) (t : Tree) :
    Staffed rules (observer event (t, run)).2.stages ∧
      (observer event (t, run)).2.memory = run.memory := by
  simp only [Pipeline.observer]
  split
  · exact ⟨h, rfl⟩
  · exact h.relay event t run.memory

end Stages

section Documents

variable {rules : List Rule} {p : Pipeline Focus ω}

theorem stages_ofRules (rules : List Rule) :
    (ofRules rules : Pipeline Focus ω).stages = freshStages rules := by
  have hfold : ∀ (rules : List Rule) (p : Pipeline Focus ω),
      (rules.foldl pipeRule p).stages = p.stages ++ freshStages rules := by
    intro rules
    induction rules with
    | nil => exact fun p => (List.append_nil _).symm
    | cons r rules ih =>
      intro p
      rw [List.foldl_cons, ih, pipeRule, pipe, List.append_assoc]
      rfl
  exact hfold rules {}

theorem staffed_ofRules (rules : List Rule) :
    Staffed rules (ofRules rules : Pipeline Focus ω).stages := by
  rw [stages_ofRules]
  exact staffed_freshStages rules

/-- Of the documents before it, the next one finds nothing. -/
theorem treeOf_eq_fresh (h : Staffed rules p.stages) (memory : ω) (input : String) :
    p.treeOf memory input = (ofRules rules).treeOf memory input := by
  have hsame : ∀ run : Run Focus ω, p.parser.parseWith observer run input =
      (ofRules rules : Pipeline Focus ω).parser.parseWith observer run input := fun _ => rfl
  simp only [treeOf, h.resetAll, (staffed_ofRules rules).resetAll, hsame]

/-- A document, however it ends, leaves the rules in place. -/
theorem Staffed.treeOf (h : Staffed rules p.stages) (memory : ω) (input : String) :
    Staffed rules (p.treeOf memory input).2.2.stages ∧ (p.treeOf memory input).2.1 = memory := by
  simp only [Pipeline.treeOf, h.resetAll]
  obtain ⟨g, hreached, hmemory, -⟩ := exists_reached p.parser Pipeline.observer
    { stages := freshStages rules, memory } input
  rw [hmemory]
  refine hreached.memory (P := fun run => Staffed rules run.stages ∧ run.memory = memory) ?_
    ⟨staffed_freshStages rules, rfl⟩
  rintro event t run ⟨hrun, hsame⟩
  obtain ⟨hstages, hkept⟩ := hrun.observer event t
  exact ⟨hstages, hkept.trans hsame⟩

/-- However the documents end, they leave the rules in place. -/
theorem Staffed.after (h : Staffed rules p.stages) (memory : ω) (earlier : List String) :
    Staffed rules (p.after memory earlier).2.stages ∧ (p.after memory earlier).1 = memory := by
  induction earlier generalizing p with
  | nil => exact ⟨h, rfl⟩
  | cons input earlier ih =>
    obtain ⟨hstages, hmemory⟩ := h.treeOf memory input
    have hafter : p.after memory (input :: earlier) =
        (p.treeOf memory input).2.2.after memory earlier := by
      rw [Pipeline.after, List.foldl_cons, Pipeline.after]
      exact congrArg (fun m => earlier.foldl _ (m, (p.treeOf memory input).2.2)) hmemory
    rw [hafter]
    exact ih hstages

/-- **Documents are independent.** Whatever documents a pipeline of rules has processed, and however
they ended, it makes of the next one what a fresh pipeline of these rules makes of it: the same tree
and the same markup, or the same error, and the same issues. So does a parser by itself. -/
theorem independent_documents (rules : List Rule) (memory : ω) (earlier : List String)
    (input : String) :
    (let fresh : Pipeline Focus ω := ofRules rules
      let (memory', used) := fresh.after memory earlier
      (used.process memory' input).1 = (fresh.process memory input).1 ∧
      (used.process memory' input).2.2.issues = (fresh.process memory input).2.2.issues ∧
      (used.treeOf memory' input).1 = (fresh.treeOf memory input).1 ∧
      (used.treeOf memory' input).2.2.issues = (fresh.treeOf memory input).2.2.issues) ∧
    let fresh : Parser := {}
    let used := fresh.after earlier
    (used.parse input).1 = (fresh.parse input).1 ∧
      (used.parse input).2.issues = (fresh.parse input).2.issues := by
  have hstaffed : Staffed rules (ofRules rules : Pipeline Focus ω).stages := staffed_ofRules rules
  obtain ⟨hused, hmemory⟩ := hstaffed.after memory earlier
  have htree := treeOf_eq_fresh hused memory input
  refine ⟨?_, rfl, rfl⟩
  simp only [process, hmemory, htree, and_self]

end Documents

end Pipeline

end Hypertext
