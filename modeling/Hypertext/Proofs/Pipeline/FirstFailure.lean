/-
A pipeline stops at its first failure. What its processors are asked is written
down as they are asked it (`Pipeline.logged`), which changes nothing else
(`treeOf_logged`). The requests then stand in the order of the events, and for
each event in the order of the stages, up to the first one that fails
(`Asked`); the failure of that one is the document's, also where the document
cannot be read to its end (`first_failure_ends`).

The parser does not know of a failure, and events go on behind it. That no
processor hears of them is a matter of each event (`Watched.next`), and so of
all the events of a document (`watched`).
-/
import Hypertext.Pipeline.Probe
import Hypertext.Proofs.Markup.Reaching
import Hypertext.Proofs.Markup.Recording
import Hypertext.Proofs.Markup.Refusals

namespace Hypertext

namespace Pipeline

open Markup

/-! ## Requests -/

/-- An event put to the processor at a place. -/
structure Request where
  place : Nat
  event : Event
  deriving DecidableEq, Repr

/-- Requests in the order in which they were made, and what went wrong with each, if anything did. -/
abbrev Log := List (Request × Option Error)

/-- An event put to so many processors, from a place on. -/
def requests (place count : Nat) (event : Event) : List Request :=
  (List.range' place count).map (⟨·, event⟩)

variable {σ ω : Type}

/-- The processor, with all it is asked and what came of it written down. -/
def Processor.logged (processor : Processor σ ω) (place : Nat) : Processor σ (ω × Log) where
  reset := fun (state, memory, log) =>
    let (state, memory) := processor.reset (state, memory)
    (state, memory, log)
  react := fun event ⟨tree, state, memory, log⟩ =>
    let (scene, failure) := processor.react event ⟨tree, state, memory⟩
    (⟨scene.tree, scene.state, scene.memory, log ++ [(⟨place, event⟩, failure)]⟩, failure)

/-- The stages with all that their processors are asked written down, the first being at the place. -/
def loggedFrom : Nat → List (Stage σ ω) → List (Stage σ (ω × Log))
  | _, [] => []
  | place, s :: rest => ⟨s.processor.logged place, s.state⟩ :: loggedFrom (place + 1) rest

def logged (p : Pipeline σ ω) : Pipeline σ (ω × Log) where
  stages := loggedFrom 0 p.stages
  parser := p.parser

/-- All that the processors are asked while the pipeline reads the document. -/
def log (p : Pipeline σ ω) (memory : ω) (input : String) : Log :=
  (p.logged.treeOf (memory, []) input).2.1.2

/-- The stages before the first event of a document. -/
def begun (p : Pipeline σ ω) (memory : ω) : Run σ ω :=
  let (stages, memory) := resetAll p.stages memory
  { stages, memory }

/-- What the parser makes of the document while the processors follow. -/
def parsed (p : Pipeline σ ω) (memory : ω) (input : String) : Except Failure Tree :=
  (p.parser.parseWith observer (p.begun memory) input).1

/-- The events of the document, whether or not a processor hears of them. -/
def told (p : Pipeline σ ω) (memory : ω) (input : String) : List Event :=
  (p.parser.parseWith observer.recorded (p.begun memory, []) input).2.1.2.map (·.event)

/-! ## Up to a failure -/

/-- Of the requests that are due these have been made: all, or those up to the first that failed. -/
inductive Asked : List Request → Log → Option Error → Prop where
  | all : Asked [] [] none
  | failed {r due e} : Asked (r :: due) [(r, some e)] (some e)
  | passed {r due log failure} : Asked due log failure → Asked (r :: due) ((r, none) :: log) failure

section Asked

variable {due more : List Request} {log later : Log} {failure : Option Error} {e : Error}

theorem Asked.append (h : Asked due log none) (hmore : Asked more later failure) :
    Asked (due ++ more) (log ++ later) failure := by
  generalize hpassed : none = answer at h
  induction h with
  | all => exact hmore
  | failed => cases hpassed
  | passed _ ih => exact .passed (ih hpassed)

/-- Behind a failure nothing is asked, whatever is due. -/
theorem Asked.stay (h : Asked due log (some e)) (more : List Request) :
    Asked (due ++ more) log (some e) := by
  generalize hfailed : some e = answer at h ⊢
  induction h with
  | all => cases hfailed
  | failed => exact .failed
  | passed _ ih => exact .passed (ih hfailed)

theorem Asked.isPrefix (h : Asked due log failure) : log.map Prod.fst <+: due := by
  induction h with
  | all => exact List.prefix_refl _
  | failed => exact List.prefix_append _ _
  | @passed r _ _ _ _ ih => exact (List.prefix_cons_inj r).mpr ih

theorem Asked.complete (h : Asked due log failure) (hlog : ∀ entry ∈ log, entry.2 = none) :
    failure = none ∧ log.map Prod.fst = due := by
  induction h with
  | all => exact ⟨rfl, rfl⟩
  | failed => cases hlog _ List.mem_cons_self
  | passed _ ih =>
    obtain ⟨hfailure, hdue⟩ := ih fun entry hentry => hlog entry (.tail _ hentry)
    exact ⟨hfailure, congrArg _ hdue⟩

/-- A request that failed is the only one, and the last. -/
theorem Asked.of_failed (h : Asked due log failure) {before after : Log} {r : Request}
    (hlog : log = before ++ (r, some e) :: after) :
    failure = some e ∧ after = [] ∧ ∀ entry ∈ before, entry.2 = none := by
  induction h generalizing before with
  | all => simp at hlog
  | failed =>
    cases before with
    | nil =>
      cases hlog
      exact ⟨rfl, rfl, by simp⟩
    | cons => simp at hlog
  | passed _ ih =>
    cases before with
    | nil => simp at hlog
    | cons entry before =>
      obtain ⟨rfl, hrest⟩ := List.cons.inj hlog
      obtain ⟨hfailure, hafter, hbefore⟩ := ih hrest
      exact ⟨hfailure, hafter, List.forall_mem_cons.mpr ⟨rfl, hbefore⟩⟩

end Asked

/-! ## One event -/

/-- What the stages are asked about an event, the first being at the place. -/
def asked (event : Event) : Nat → List (Stage σ ω) → Tree → ω → Log
  | _, [], _, _ => []
  | place, s :: rest, tree, memory =>
    let (scene, failure) := s.processor.react event ⟨tree, s.state, memory⟩
    (⟨place, event⟩, failure) ::
      match failure with
      | some _ => []
      | none => asked event (place + 1) rest scene.tree scene.memory

/-- A run as it is where all is written down. -/
def Run.logged (run : Run σ ω) (place : Nat) (log : Log) : Run σ (ω × Log) where
  stages := loggedFrom place run.stages
  memory := (run.memory, log)
  failure := run.failure

section Events

variable (event : Event) (place : Nat) (stages : List (Stage σ ω)) (tree : Tree) (memory : ω) (log : Log)

theorem relay_logged : relay event (loggedFrom place stages) tree (memory, log) =
    ((relay event stages tree memory).1,
      (relay event stages tree memory).2.logged place (log ++ asked event place stages tree memory)) := by
  induction stages generalizing place tree memory log with
  | nil => simp [relay, loggedFrom, asked, Run.logged]
  | cons s rest ih =>
    rcases hreact : s.processor.react event ⟨tree, s.state, memory⟩ with
      ⟨⟨tree', state', memory'⟩, failure⟩
    cases failure with
    | some e => simp [relay, loggedFrom, asked, Run.logged, Processor.logged, hreact]
    | none => simp [relay, loggedFrom, asked, Run.logged, Processor.logged, hreact, ih]

theorem asked_relay : Asked (requests place stages.length event) (asked event place stages tree memory)
    (relay event stages tree memory).2.failure := by
  induction stages generalizing place tree memory with
  | nil => exact .all
  | cons s rest ih =>
    rcases hreact : s.processor.react event ⟨tree, s.state, memory⟩ with
      ⟨⟨tree', state', memory'⟩, failure⟩
    simp only [requests, List.length_cons, List.range'_succ, List.map_cons, asked, relay, hreact]
    cases failure with
    | some e => exact .failed
    | none => exact .passed (ih (place + 1) tree' memory')

theorem length_relay : (relay event stages tree memory).2.stages.length = stages.length := by
  induction stages generalizing tree memory with
  | nil => rfl
  | cons s rest ih =>
    rcases hreact : s.processor.react event ⟨tree, s.state, memory⟩ with
      ⟨⟨tree', state', memory'⟩, failure⟩
    simp only [relay, hreact]
    cases failure with
    | some e => rfl
    | none => simp only [List.length_cons, ih]

end Events

/-! ## All the events of a document -/

/-- The pipeline as an observer, with all that its stages are asked beside it. -/
def watching : Observer (Run σ ω × Log) := fun event (tree, run, log) =>
  let (tree', run') := observer event (tree, run)
  (tree', run', log ++
    match run.failure with
    | some _ => []
    | none => asked event 0 run.stages tree run.memory)

theorem mirrors_watching : Observer.Mirrors Prod.fst (watching : Observer (Run σ ω × Log)) observer :=
  fun _ _ _ => rfl

/-- The stages that write down what they are asked write what is written beside the others. -/
theorem mirrors_watching_logged : Observer.Mirrors (fun (run, log) => run.logged 0 log)
    (watching : Observer (Run σ ω × Log)) observer := by
  rintro event tree ⟨⟨stages, memory, failure⟩, log⟩
  cases failure with
  | some e => simp [watching, observer, Run.logged]
  | none => simpa [watching, observer, Run.logged] using relay_logged event 0 stages tree memory log

/-- Of all that the events so far put to so many stages, this has been asked. -/
structure Watched (count : Nat) (run : Run σ ω) (log : Log) (told : List Event) : Prop where
  length : run.stages.length = count
  asked : Asked (told.flatMap (requests 0 count)) log run.failure

theorem Watched.next {count : Nat} {run : Run σ ω} {log : Log} {told : List Event}
    (h : Watched count run log told) (event : Event) (tree : Tree) :
    let after := (watching event (tree, run, log)).2
    Watched count after.1 after.2 (told ++ [event]) := by
  obtain ⟨stages, memory, failure⟩ := run
  obtain ⟨rfl, hasked⟩ := h
  cases failure with
  | some e =>
    -- One more event is due, and nobody hears of it.
    refine ⟨rfl, ?_⟩
    simp only [watching, observer, List.flatMap_append, List.append_nil]
    exact hasked.stay _
  | none =>
    refine ⟨length_relay event stages tree memory, ?_⟩
    simp only [watching, observer, List.flatMap_append, List.flatMap_cons, List.flatMap_nil,
      List.append_nil]
    exact hasked.append (asked_relay event 0 stages tree memory)

theorem resetAll_logged (place : Nat) (stages : List (Stage σ ω)) (memory : ω) (log : Log) :
    resetAll (loggedFrom place stages) (memory, log) =
      (loggedFrom place (resetAll stages memory).1, (resetAll stages memory).2, log) := by
  induction stages generalizing place memory with
  | nil => rfl
  | cons s rest ih =>
    rcases hreset : s.processor.reset (s.state, memory) with ⟨state', memory'⟩
    simp [resetAll, loggedFrom, Processor.logged, hreset, ih]

theorem length_resetAll (stages : List (Stage σ ω)) (memory : ω) :
    (resetAll stages memory).1.length = stages.length := by
  induction stages generalizing memory with
  | nil => rfl
  | cons s rest ih => simp only [resetAll, List.length_cons, ih]

section Documents

variable (p : Pipeline σ ω) (memory : ω) (input : String)

theorem begun_logged : p.logged.begun (memory, []) = (p.begun memory).logged 0 [] := by
  simp only [begun, logged, resetAll_logged, Run.logged]

/-- The document read with all that the stages are asked beside it. -/
theorem parseWith_logged :
    let outcome := p.parser.parseWith watching (p.begun memory, []) input
    p.parser.parseWith observer (p.begun memory) input = (outcome.1, outcome.2.1.1, outcome.2.2) ∧
      p.parser.parseWith observer (p.logged.begun (memory, [])) input =
        (outcome.1, outcome.2.1.1.logged 0 outcome.2.1.2, outcome.2.2) := by
  rw [begun_logged]
  exact ⟨parseWith_mirrored mirrors_watching p.parser (p.begun memory, []) input,
    parseWith_mirrored mirrors_watching_logged p.parser (p.begun memory, []) input⟩

theorem log_eq : p.log memory input = (p.parser.parseWith watching (p.begun memory, []) input).2.1.2 :=
  congrArg (fun outcome => outcome.2.1.memory.2) (p.parseWith_logged memory input).2

/-- Writing down what the processors are asked changes nothing. -/
theorem treeOf_logged : p.logged.treeOf (memory, []) input =
    ((p.treeOf memory input).1, ((p.treeOf memory input).2.1, p.log memory input),
      (p.treeOf memory input).2.2.logged) := by
  obtain ⟨hplain, hlogged⟩ := p.parseWith_logged memory input
  have hparser : p.logged.parser = p.parser := rfl
  simp only [begun] at hplain hlogged
  simp only [log_eq, treeOf, hparser, begun, hplain, hlogged]
  rfl

/-- What the processors are asked of all that the events of a document put to them. -/
theorem watched : Watched p.stages.length
    (p.parser.parseWith observer (p.begun memory) input).2.1 (p.log memory input) (p.told memory input) := by
  -- Requests and events are read off one run in which both are written down.
  have htold := parseWith_mirrored (mirrors_watching (σ := σ) (ω := ω)).recorded p.parser
    ((p.begun memory, []), []) input
  have hwatching := parseWith_recorded p.parser watching (p.begun memory, []) input
  obtain ⟨g, hreached, hmemory, -⟩ := exists_reached p.parser (Observer.recorded watching)
    ((p.begun memory, ([] : Log)), []) input
  have hwatched : Watched p.stages.length g.memory.1.1 g.memory.1.2 (g.memory.2.map (·.event)) := by
    have hbegun : Watched p.stages.length (p.begun memory) [] [] :=
      ⟨length_resetAll p.stages memory, .all⟩
    refine hreached.memory (P := fun m => Watched p.stages.length m.1.1 m.1.2 (m.2.map (·.event))) ?_
      hbegun
    rintro event tree ⟨⟨run, log⟩, notices⟩ h
    have hnext := h.next event tree
    simpa [Observer.recorded] using hnext
  rw [← hmemory] at hwatched
  rw [(p.parseWith_logged memory input).1, log_eq, hwatching, told]
  rw [show ((p.begun memory, []) : Run σ ω × List Notice) =
    Prod.map Prod.fst id ((p.begun memory, ([] : Log)), []) from rfl, htold]
  exact hwatched

theorem treeOf_failed {e : Error}
    (h : (p.parser.parseWith observer (p.begun memory) input).2.1.failure = some e) :
    (p.treeOf memory input).1 = .error e := by
  simp only [begun] at h
  simp only [treeOf, h]

theorem treeOf_passed (h : (p.parser.parseWith observer (p.begun memory) input).2.1.failure = none) :
    (p.treeOf memory input).1 = (p.parsed memory input).mapError .parse := by
  simp only [begun] at h
  simp only [treeOf, h, parsed, begun]
  cases (p.parser.parseWith observer _ input).1 <;> rfl

/-- **A document has its first failure, and nobody is asked anything after it.** The processors are
asked in the order of the events, and for each event in their own order. A request that fails is
the last one, none before it has failed, and its failure is the document's, whether or not the
document can be read to its end. Where no request fails, each processor is asked about each event;
then the document fails where its tokens do, and otherwise there is its tree. What is written down of
the requests is what happens without. -/
theorem first_failure_ends :
    let log := p.log memory input
    let due := (p.told memory input).flatMap (requests 0 p.stages.length)
    let outcome := (p.treeOf memory input).1
    (p.logged.treeOf (memory, []) input).1 = outcome ∧
    log.map Prod.fst <+: due ∧
    (∀ before r e after, log = before ++ (r, some e) :: after →
      (∀ earlier ∈ before, earlier.2 = none) ∧ after = [] ∧ outcome = .error e) ∧
    ((∀ asked ∈ log, asked.2 = none) →
      log.map Prod.fst = due ∧
      (∀ failure, tokensOf input = .error failure → outcome = .error (.parse failure)) ∧
      ∀ tokens, tokensOf input = .ok tokens → ∃ t, p.parsed memory input = .ok t ∧ outcome = .ok t) := by
  intro log due outcome
  have hasked := (p.watched memory input).asked
  refine ⟨by rw [treeOf_logged], hasked.isPrefix, fun before r e after hlog => ?_, fun hlog => ?_⟩
  · obtain ⟨hfailure, hafter, hbefore⟩ := hasked.of_failed hlog
    exact ⟨hbefore, hafter, p.treeOf_failed memory input hfailure⟩
  · obtain ⟨hpassed, hall⟩ := hasked.complete hlog
    have houtcome : outcome = (p.parsed memory input).mapError .parse :=
      p.treeOf_passed memory input hpassed
    refine ⟨hall, fun failure htokens => ?_, fun tokens htokens => ?_⟩
    · have hparsed : p.parsed memory input = .error failure :=
        (parseWith_eq_error_iff p.parser observer (p.begun memory)).mpr htokens
      rw [houtcome, hparsed]
      rfl
    · obtain ⟨t, ht⟩ := (parseWith_ok_iff p.parser observer (p.begun memory) input).mpr ⟨tokens, htokens⟩
      have hparsed : p.parsed memory input = .ok t := ht
      refine ⟨t, hparsed, ?_⟩
      rw [houtcome, hparsed]
      rfl

/-- The second of three processors fails at the end of a `B`. In the first document that comes before
the character which is refused; in the second one it never comes. -/
theorem first_failure_ends_inside :
    let p : Pipeline Unit (List Record) :=
      { stages := [⟨Probe.recorder.processor, ()⟩, ⟨(Probe.fail "B").processor, ()⟩,
          ⟨Probe.noop.processor, ()⟩] }
    let b : NodeId := ⟨1⟩
    (p.log [] "<b></b>x<a-" =
        [(⟨0, ⟨.elementStarted, b⟩⟩, none), (⟨1, ⟨.elementStarted, b⟩⟩, none),
          (⟨2, ⟨.elementStarted, b⟩⟩, none), (⟨0, ⟨.elementEnded, b⟩⟩, none)] ++
        (⟨1, ⟨.elementEnded, b⟩⟩, some (.unknownProcessor "B")) :: [] ∧
      (p.treeOf [] "<b></b>x<a-").1 = .error (.unknownProcessor "B")) ∧
    (∀ asked ∈ p.log [] "<i><a-", asked.2 = none) ∧
      ∃ failure, tokensOf "<i><a-" = .error failure ∧
        (p.treeOf [] "<i><a-").1 = .error (.parse failure) := by
  intro p b
  have hlog : p.log [] "<b></b>x<a-" =
      [(⟨0, ⟨.elementStarted, b⟩⟩, none), (⟨1, ⟨.elementStarted, b⟩⟩, none),
        (⟨2, ⟨.elementStarted, b⟩⟩, none), (⟨0, ⟨.elementEnded, b⟩⟩, none)] ++
      (⟨1, ⟨.elementEnded, b⟩⟩, some (.unknownProcessor "B")) :: [] := by decide +kernel
  obtain ⟨-, -, hfails, -⟩ := first_failure_ends p [] "<b></b>x<a-"
  have hpassed : ∀ asked ∈ p.log [] "<i><a-", asked.2 = none := by decide +kernel
  have htokens : tokensOf "<i><a-" = .error ⟨5, "<i><a-", .noTransition .startTag '-'⟩ := by
    decide +kernel
  obtain ⟨-, -, -, hpasses⟩ := first_failure_ends p [] "<i><a-"
  exact ⟨⟨hlog, (hfails _ _ _ _ hlog).2.2⟩, hpassed, _, htokens, (hpasses hpassed).2.1 _ htokens⟩

end Documents

end Pipeline

end Hypertext
