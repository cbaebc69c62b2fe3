/-
When a warning is given. A console keeps the keys of what it has warned of since
it was last told to forget, and gives a warning whose key is new (`mem_warned_iff`).
Two warnings share their key if their components and messages are the same, but
not only then: a component may hold what separates it from the message
(`warningKey_eq_iff`).

A document that goes through a pipeline is warned of from the beginning, and all
its warnings are of one component. So what is printed are the messages of its
issues, each on a line where it comes first (`warnings_of_documents`).
-/
import Hypertext.Console
import Hypertext.Proofs.Markup.Aloud
import Hypertext.Proofs.Markup.Pieces
import Hypertext.Proofs.Tree.Attributes

namespace Hypertext

/-! ## Keys -/

/-- The two warnings look the same with their components in brackets before them. -/
def ReadsAlike (component message component' message' : String) : Prop :=
  (component' = component ∧ message' = message) ∨ ∃ s,
    (component' = component ++ "] " ++ s ∧ message = s ++ "] " ++ message') ∨
      (component = component' ++ "] " ++ s ∧ message' = s ++ "] " ++ message)

/-- What separates a component from its message stands in the component itself. -/
def HoldsBracket (component : String) : Prop :=
  ∃ s s', component = s ++ "] " ++ s'

/-- Where one component reaches further than the other, it does so by at least a separator. -/
theorem exists_rest_of_separated {s m m' : List Char}
    (h : [']', ' '] ++ m = s ++ ([']', ' '] ++ m')) :
    (s = [] ∧ m = m') ∨ ∃ rest, s = [']', ' '] ++ rest ∧ m = rest ++ ([']', ' '] ++ m') := by
  match s with
  | [] => exact .inl ⟨rfl, by simpa using h⟩
  | [c] => simp at h
  | c :: c' :: rest =>
    simp only [List.cons_append, List.nil_append, List.cons.injEq] at h
    obtain ⟨rfl, rfl, rfl⟩ := h
    exact .inr ⟨rest, rfl, rfl⟩

theorem warningKey_eq_iff {component message component' message' : String} :
    warningKey component' message' = warningKey component message ↔
      ReadsAlike component message component' message' := by
  have hsep : "] ".toList = [']', ' '] := rfl
  have hkey : warningKey component' message' = warningKey component message ↔
      component'.toList ++ ([']', ' '] ++ message'.toList) =
        component.toList ++ ([']', ' '] ++ message.toList) := by
    simp only [warningKey, ← String.toList_inj, String.toList_append, hsep, List.append_assoc,
      List.append_cancel_left_eq]
  simp only [hkey, ReadsAlike, ← String.toList_inj, String.toList_append, hsep, List.append_assoc]
  constructor
  · intro h
    rcases List.append_eq_append_iff.mp h with ⟨s, hs, h⟩ | ⟨s, hs, h⟩
    · rcases exists_rest_of_separated h with ⟨rfl, hm⟩ | ⟨rest, rfl, hm⟩
      · exact .inl ⟨by simpa using hs.symm, hm⟩
      · exact .inr ⟨.ofList rest, .inr (by simpa using ⟨hs, hm⟩)⟩
    · rcases exists_rest_of_separated h with ⟨rfl, hm⟩ | ⟨rest, rfl, hm⟩
      · exact .inl ⟨by simpa using hs, hm.symm⟩
      · exact .inr ⟨.ofList rest, .inl (by simpa using ⟨hs, hm⟩)⟩
  · rintro (⟨hc, hm⟩ | ⟨s, ⟨hc, hm⟩ | ⟨hc, hm⟩⟩)
    · rw [hc, hm]
    · rw [hc, hm]
      simp
    · rw [hc, hm]
      simp

/-- Of components without a bracket in them, only what is the same reads alike. -/
theorem readsAlike_iff_of_plain {component message component' message' : String}
    (h : ¬ HoldsBracket component) (h' : ¬ HoldsBracket component') :
    ReadsAlike component message component' message' ↔
      component' = component ∧ message' = message := by
  refine ⟨?_, .inl⟩
  rintro (hsame | ⟨s, ⟨hc, -⟩ | ⟨hc, -⟩⟩)
  · exact hsame
  · exact absurd ⟨component, s, hc⟩ h'
  · exact absurd ⟨component', s, hc⟩ h

theorem warningKey_injective (component : String) :
    Function.Injective (warningKey component) := by
  intro message message' h
  simpa [warningKey] using h

namespace Console

/-! ## Calls -/

/-- What can be asked of a console. -/
inductive Call where
  | warn (component message : String)
  | forget

def on (c : Console) : Call → Console
  | .warn component message => c.warn component message
  | .forget => c.forgetWarnings

/-- The console after calls from the start. -/
def after (calls : List Call) : Console :=
  calls.foldl on {}

/-- The warning was asked for after the console was last told to forget. -/
def Asked (calls : List Call) (component message : String) : Prop :=
  ∃ before later, calls = before ++ .warn component message :: later ∧ .forget ∉ later

/-- The warning would be printed. -/
def Gives (c : Console) (component message : String) : Prop :=
  (c.warn component message).err = c.err ++ warningLine component message

section Calls

variable {calls : List Call} {component message component' message' key : String} {c : Console}

theorem after_concat (calls : List Call) (call : Call) :
    after (calls ++ [call]) = (after calls).on call := by
  simp [after]

theorem not_asked_nil : ¬ Asked [] component message := by
  rintro ⟨before, later, hcalls, -⟩
  simp at hcalls

theorem asked_concat_forget : ¬ Asked (calls ++ [.forget]) component message := by
  rintro ⟨before, later, hcalls, hlater⟩
  rcases Markup.place_of_split hcalls with ⟨more, -, rfl⟩ | ⟨-, heq, -⟩ | hmem
  · exact hlater (by simp)
  · cases heq
  · cases hmem

theorem asked_concat_warn : Asked (calls ++ [.warn component' message']) component message ↔
    Asked calls component message ∨ (component = component' ∧ message = message') := by
  constructor
  · rintro ⟨before, later, hcalls, hlater⟩
    rcases Markup.place_of_split hcalls with ⟨more, hsame, rfl⟩ | ⟨-, heq, -⟩ | hmem
    · exact .inl ⟨before, more, hsame, fun hmem => hlater (List.mem_append_left _ hmem)⟩
    · cases heq
      exact .inr ⟨rfl, rfl⟩
    · cases hmem
  · rintro (⟨before, later, rfl, hlater⟩ | ⟨rfl, rfl⟩)
    · exact ⟨before, later ++ [.warn component' message'], by simp, by simpa using hlater⟩
    · exact ⟨calls, [], rfl, by simp⟩

theorem mem_warned_warn : key ∈ (c.warn component message).warned ↔
    key ∈ c.warned ∨ key = warningKey component message := by
  simp only [warn]
  split
  · next hknown =>
    constructor
    · exact .inl
    · rintro (hmem | rfl)
      · exact hmem
      · exact hknown
  · rw [List.mem_cons, or_comm]

/-- What the console remembers is what it was asked for since it last forgot. -/
theorem mem_warned_iff : key ∈ (after calls).warned ↔
    ∃ component message, Asked calls component message ∧ key = warningKey component message := by
  induction calls using List.reverseRecOn with
  | nil =>
    constructor
    · intro hmem
      cases hmem
    · rintro ⟨component, message, hasked, -⟩
      exact absurd hasked not_asked_nil
  | append_singleton calls call ih =>
    rw [after_concat]
    cases call with
    | forget =>
      constructor
      · intro hmem
        cases hmem
      · rintro ⟨component, message, hasked, -⟩
        exact absurd hasked asked_concat_forget
    | warn component' message' =>
      rw [on, mem_warned_warn, ih]
      simp only [asked_concat_warn]
      constructor
      · rintro (⟨component, message, hasked, rfl⟩ | rfl)
        · exact ⟨component, message, .inl hasked, rfl⟩
        · exact ⟨component', message', .inr ⟨rfl, rfl⟩, rfl⟩
      · rintro ⟨component, message, hasked | ⟨rfl, rfl⟩, rfl⟩
        · exact .inl ⟨component, message, hasked, rfl⟩
        · exact .inr rfl

theorem warningLine_ne (component message : String) : warningLine component message ≠ "" := by
  simp [warningLine]

theorem gives_iff_not_mem : c.Gives component message ↔ warningKey component message ∉ c.warned := by
  simp only [Gives, warn]
  split
  · next hknown =>
    refine iff_of_false (fun h => ?_) (not_not_intro hknown)
    exact warningLine_ne component message (String.append_eq_left_iff.mp h.symm)
  · next hnew => exact iff_of_true rfl hnew

/-- **A warning is given once.** After whatever calls, it is printed just if none that reads alike was
asked for since the console was last told to forget, and otherwise nothing changes. Where no component
holds a bracket, as few do, that is: if the same message of the same component was not asked for. -/
theorem gives_iff_not_alike (calls : List Call) (component message : String) :
    ((after calls).Gives component message ↔
      ∀ component' message', Asked calls component' message' →
        ¬ ReadsAlike component message component' message') ∧
    (¬ (after calls).Gives component message →
      (after calls).warn component message = after calls) ∧
    (¬ HoldsBracket component →
      (∀ component' message', Asked calls component' message' → ¬ HoldsBracket component') →
        ((after calls).Gives component message ↔ ¬ Asked calls component message)) := by
  have hgives : (after calls).Gives component message ↔
      ∀ component' message', Asked calls component' message' →
        ¬ ReadsAlike component message component' message' := by
    rw [gives_iff_not_mem, mem_warned_iff]
    constructor
    · intro hnone component' message' hasked halike
      exact hnone ⟨component', message', hasked, (warningKey_eq_iff.mpr halike).symm⟩
    · rintro hnone ⟨component', message', hasked, hkey⟩
      exact hnone component' message' hasked (warningKey_eq_iff.mp hkey.symm)
  refine ⟨hgives, fun hnot => ?_, fun hplain hplains => ?_⟩
  · rw [gives_iff_not_mem, not_not] at hnot
    simp only [warn, if_pos hnot]
  · rw [hgives]
    constructor
    · exact fun hnone hasked => hnone component message hasked (.inl ⟨rfl, rfl⟩)
    · intro hnot component' message' hasked halike
      obtain ⟨rfl, rfl⟩ := (readsAlike_iff_of_plain hplain (hplains _ _ hasked)).mp halike
      exact hnot hasked

/-- A component that ends in a bracket: its message is taken for one of another component that begins
with what is left of the bracket. Its other messages are given. -/
theorem gives_iff_not_alike_bracket :
    let calls := [Call.warn "A" "] x"]
    ¬ (after calls).Gives "A] " "x" ∧ ¬ Asked calls "A] " "x" ∧ (after calls).Gives "A] " "y" ∧
      ¬ HoldsBracket "A" ∧ (after calls).Gives "A" "x" := by
  intro calls
  have hasked : ∀ {component message}, Asked calls component message ↔
      component = "A" ∧ message = "] x" := by
    intro component message
    rw [show calls = [] ++ [.warn "A" "] x"] from rfl, asked_concat_warn, or_iff_right not_asked_nil]
  have hplain : ¬ HoldsBracket "A" := by
    rintro ⟨s, s', h⟩
    have hlength := congrArg String.length h
    simp only [String.length_append, show "A".length = 1 from rfl, show "] ".length = 2 from rfl]
      at hlength
    omega
  have hnot : ∀ {component message}, ¬ (component = "A" ∧ message = "] x") →
      ¬ Asked calls component message := fun h => mt hasked.mp h
  refine ⟨fun h => ?_, hnot (by simp), (gives_iff_not_alike calls "A] " "y").1.mpr ?_, hplain, ?_⟩
  · exact (gives_iff_not_alike calls "A] " "x").1.mp h "A" "] x" (hasked.mpr ⟨rfl, rfl⟩)
      (.inr ⟨"", .inr ⟨rfl, rfl⟩⟩)
  · intro component' message' h halike
    obtain ⟨rfl, rfl⟩ := hasked.mp h
    exact absurd (warningKey_eq_iff.mpr halike) (by decide)
  · refine ((gives_iff_not_alike calls "A" "x").2.2 hplain fun component' message' h => ?_).mpr
      (hnot (by simp))
    obtain ⟨rfl, rfl⟩ := hasked.mp h
    exact hplain

end Calls

/-! ## Documents -/

section Documents

open Markup

variable {σ ω : Type}

/-- The messages of issues, one for each. -/
def messagesOf (issues : List Issue) : List String :=
  issues.map (·.message)

/-- Documents through one pipeline, one after the other: the issues of each, and what they leave. -/
def processAll (c : Console) (p : Pipeline σ ω) (memory : ω) :
    List String → List (List Issue) × Console × Pipeline σ ω × ω
  | [] => ([], c, p, memory)
  | input :: later =>
    let (_, memory, p, c) := c.process p memory input
    let (issues, left) := c.processAll p memory later
    (p.issues :: issues, left)

@[simp] theorem out_warn (c : Console) (component message : String) :
    (c.warn component message).out = c.out := by
  simp only [warn]
  split <;> rfl

/-- What a console that remembers nothing is warned of: each message once, where it comes first. -/
theorem report_spec {c : Console} (hc : c.warned = []) (issues : List Issue) :
    (c.report issues).out = c.out ∧
      (c.report issues).err =
        c.err ++ String.join ((messagesOf issues).eraseDups.map (warningLine "HTML Parser")) ∧
      ∀ message, warningKey "HTML Parser" message ∈ (c.report issues).warned ↔
        message ∈ messagesOf issues := by
  induction issues using List.reverseRecOn with
  | nil => simp [report, messagesOf, hc]
  | append_singleton issues i ih =>
    obtain ⟨hout, herr, hwarned⟩ := ih
    have hstep : c.report (issues ++ [i]) = (c.report issues).warn "HTML Parser" i.message := by
      rw [report, List.foldl_append]
      rfl
    have hmessages : messagesOf (issues ++ [i]) = messagesOf issues ++ [i.message] := by
      simp [messagesOf]
    rw [hstep, hmessages, eraseDups_concat]
    refine ⟨by rw [out_warn, hout], ?_, fun message => ?_⟩
    · simp only [warn, hwarned]
      split
      · exact herr
      · simp [herr, String.append_assoc]
    · rw [mem_warned_warn, hwarned, (warningKey_injective _).eq_iff, List.mem_append,
        List.mem_singleton]

/-- A console follows a document without changing what becomes of it, and is warned of its issues
once it has forgotten those of earlier ones. -/
theorem process_eq (c : Console) (p : Pipeline σ ω) (memory : ω) (input : String) :
    c.process p memory input =
      let (result, memory, p) := p.process memory input
      (result, memory, p, c.forgetWarnings.report p.issues) := by
  simp only [process, Parser.parseAloud_eq, Pipeline.process, Pipeline.treeOf, Pipeline.issues]
  generalize p.parser.parseWith _ _ _ = outcome
  obtain ⟨result, run, parser⟩ := outcome
  dsimp only
  cases run.failure with
  | some e => rfl
  | none => cases result <;> rfl

/-- A warning of the parser, as it is printed: a yellow line. -/
theorem warningLine_eq (message : String) : warningLine "HTML Parser" message =
    "\x1b[33m[arbor HTML Parser] warning: " ++ message ++ "\x1b[39m\n" := by
  have hbefore : "\x1b[33m[arbor HTML Parser] warning: " =
      "\x1b[33m" ++ ("[arbor " ++ ("HTML Parser" ++ "] warning: ")) := by decide +kernel
  have hafter : "\x1b[39m\n" = "\x1b[39m" ++ "\n" := by decide +kernel
  rw [hbefore, hafter]
  simp only [warningLine, yellow, String.append_assoc]

/-- **The warnings of a document are the messages of its issues.** Whatever console and pipeline
earlier documents have left, what is printed of a document is a line for each different message of its
issues, once and in the order in which they come first, whether it is read to its end, is given up by
a processor or cannot be read; and so of documents one after the other. -/
theorem warnings_of_documents (c : Console) (p : Pipeline σ ω) (memory : ω) :
    let line (message : String) := "\x1b[33m[arbor HTML Parser] warning: " ++ message ++ "\x1b[39m\n"
    (∀ input, ∃ result memory' p' c',
      c.process p memory input = (result, memory', p', c') ∧
      p.process memory input = (result, memory', p') ∧ c'.out = c.out ∧
      c'.err = c.err ++ String.join ((messagesOf p'.issues).eraseDups.map line)) ∧
    ∀ inputs, ∃ issues c' left, c.processAll p memory inputs = (issues, c', left) ∧
      c'.out = c.out ∧
      c'.err = c.err ++
        String.join ((issues.flatMap fun issues => (messagesOf issues).eraseDups).map line) := by
  intro line
  have hline : warningLine "HTML Parser" = line := funext warningLine_eq
  have hone : ∀ (c : Console) (p : Pipeline σ ω) (memory : ω) input, ∃ result memory' p' c',
      c.process p memory input = (result, memory', p', c') ∧
      p.process memory input = (result, memory', p') ∧ c'.out = c.out ∧
      c'.err = c.err ++ String.join ((messagesOf p'.issues).eraseDups.map line) := by
    intro c p memory input
    rcases hprocess : p.process memory input with ⟨result, memory', p'⟩
    obtain ⟨hout, herr, -⟩ := report_spec (c := c.forgetWarnings) rfl p'.issues
    rw [hline] at herr
    exact ⟨result, memory', p', _, by rw [process_eq, hprocess], rfl, hout, herr⟩
  refine ⟨hone c p memory, fun inputs => ?_⟩
  induction inputs generalizing c p memory with
  | nil => exact ⟨[], c, (p, memory), rfl, rfl, by simp⟩
  | cons input later ih =>
    obtain ⟨result, memory', p', c', hprocess, -, hout, herr⟩ := hone c p memory input
    obtain ⟨issues, c'', left, hlater, hout', herr'⟩ := ih c' p' memory'
    refine ⟨p'.issues :: issues, c'', left, ?_, hout'.trans hout, ?_⟩
    · simp only [processAll, hprocess, hlater]
    · rw [herr', herr, String.append_assoc, List.flatMap_cons, List.map_append, String.join_append]

/-- The last end tag is reported in the words of the first, and no second warning is printed. -/
example : (({} : Console).process ({} : Pipeline Unit Unit) () "</p></i></p>").2.2.2.err =
    "\x1b[33m[arbor HTML Parser] warning: unmatched end tag </p> ignored\x1b[39m\n" ++
      "\x1b[33m[arbor HTML Parser] warning: unmatched end tag </i> ignored\x1b[39m\n" := by
  decide +kernel

end Documents

end Console

end Hypertext
