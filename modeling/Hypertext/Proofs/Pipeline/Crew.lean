/-
Element rules at work. What a rule makes of an event is a verdict: whether the
event's node is to be taken out, and where the rule is at work from then on. The
verdict depends on nothing but the outlook from the node, so a pipeline of such
rules is a local observer, and its tree is the one that the rules, as a crew,
leave of the finished document when its events are played to them
(`treeOf_eq_play`).

All this is for rules that make only comparisons with a meaning; such rules do
not fail.
-/
import Hypertext.Pipeline.Rules
import Hypertext.Proofs.Markup.Replay
import Hypertext.Proofs.Selector.Agreement

namespace Hypertext.Pipeline

open Markup Selector

/-! ## Verdicts -/

namespace ElementRule

/-- The rule makes only comparisons with a meaning. -/
structure Supported (r : ElementRule) : Prop where
  selectors : ∀ s ∈ r.selectors, s.Supported
  within : ∀ selectors, r.within = some selectors → ∀ s ∈ selectors, s.Supported

/-- The node may open a scope. -/
def Opens (r : ElementRule) (t : Tree) (id : NodeId) : Prop :=
  ∀ selectors, r.within = some selectors → Picks t selectors id

instance (r : ElementRule) (t : Tree) (id : NodeId) : Decidable (r.Opens t id) :=
  match h : r.within with
  | none => .isTrue (by simp [Opens, h])
  | some selectors =>
    decidable_of_iff (Picks t selectors id) (by simp [Opens, h])

/-- The focus once an element has started, before the selectors are asked. -/
def entered (r : ElementRule) (t : Tree) (f : Focus) (id : NodeId) : Focus :=
  if f.scope = none ∧ r.Opens t id then { f with scope := some id } else f

/-- Whether the event's node is to be taken out, and the focus from then on. -/
def verdict (r : ElementRule) (event : Event) (t : Tree) (f : Focus) : Bool × Focus :=
  match event.kind with
  | .elementStarted =>
    let f := r.entered t f event.node
    match f.scope, r.action, f.kept with
    | none, _, _ => (false, f)
    | some _, .remove, _ => (decide (Picks t r.selectors event.node), f)
    | some _, .removeOthers, some _ => (false, f)
    | some scope, .removeOthers, none =>
      if Picks t r.selectors event.node then
        (false, { f with
          kept := some event.node
          path := (t.ancestors event.node).takeWhile (· ≠ scope) })
      else (false, f)
  | .elementEnded =>
    if f.scope = some event.node then (false, {})
    else if f.scope = none ∨ r.action = .remove then (false, f)
    else if f.kept = some event.node then (false, { f with kept := none })
    else (decide (f.kept = none ∧ event.node ∉ f.path), f)
  | .textCreated => (decide (f.scope ≠ none ∧ f.kept = none ∧ r.action = .removeOthers), f)

theorem enter_eq {r : ElementRule} (hr : r.Supported) (t : Tree) (f : Focus) (id : NodeId) :
    r.enter t f id = .ok (r.entered t f id) := by
  cases hscope : f.scope with
  | some scope => simp [enter, entered, hscope]
  | none =>
    cases hwithin : r.within with
    | none => simp [enter, entered, Opens, hscope, hwithin]
    | some selectors =>
      rw [enter, hscope, hwithin]
      simp only [anyMatches_eq t id (hr.within selectors hwithin), entered, hscope, Opens, hwithin]
      by_cases hp : Picks t selectors id <;> simp [hp, Except.map]

/-- A rule does to an event's node what its verdict says, and does not fail. -/
theorem step_eq {r : ElementRule} (hr : r.Supported) (event : Event) (t : Tree) (f : Focus) :
    Rule.step event t f (.element r) =
      .ok (t.cut event.node (r.verdict event t f).1, (r.verdict event t f).2) := by
  obtain ⟨kind, id⟩ := event
  cases kind with
  | elementStarted =>
    simp only [Rule.step, started, enter_eq hr, verdict]
    generalize r.entered t f id = f
    cases hscope : f.scope with
    | none => rfl
    | some scope =>
      simp only [anyMatches_eq t id hr.selectors, found]
      cases r.action <;> cases hkept : f.kept <;> by_cases hp : Picks t r.selectors id <;>
        simp [hp, hscope, Except.map, Tree.cut]
  | elementEnded =>
    simp only [Rule.step, ended, verdict, Tree.cut]
    by_cases hclosed : f.scope = some id
    · simp [hclosed]
    · by_cases hidle : f.scope = none ∨ r.action = .remove
      · simp [hclosed, hidle, Option.isNone_iff_eq_none]
      · by_cases hkept : f.kept = some id
        · simp [hclosed, hidle, hkept, Option.isNone_iff_eq_none]
        · by_cases hout : f.kept = none ∧ id ∉ f.path <;>
            simp [hclosed, hidle, hkept, hout, Option.isNone_iff_eq_none]
  | textCreated =>
    simp only [Rule.step, text, verdict, Tree.cut]
    by_cases hout : f.scope ≠ none ∧ f.kept = none ∧ r.action = .removeOthers <;>
      simp [hout, Option.isNone_iff_eq_none, Option.isSome_iff_ne_none]

variable {t t' : Tree}

theorem opens_congr (r : ElementRule) {id : NodeId} (h : t.SameOutlook t' id) :
    r.Opens t' id ↔ r.Opens t id := by
  simp only [Opens, picks_congr _ h]

/-- A verdict depends on nothing but the outlook. -/
theorem verdict_congr (r : ElementRule) {event : Event} (f : Focus)
    (h : t.SameOutlook t' event.node) : r.verdict event t' f = r.verdict event t f := by
  simp only [verdict, entered, opens_congr r h, picks_congr _ h, h.ancestors]

end ElementRule

/-! ## Crews -/

/-- A rule and where it is at work. -/
structure Worker where
  rule : ElementRule
  focus : Focus := {}

namespace Worker

/-- The worker as a stage of a pipeline. -/
def stage {ω : Type} (w : Worker) : Stage Focus ω :=
  ⟨(Rule.element w.rule).processor, w.focus⟩

end Worker

/-- An event goes from worker to worker. -/
def turn (event : Event) (t : Tree) : List Worker → Tree × List Worker
  | [] => (t, [])
  | w :: crew =>
    let (out, focus) := w.rule.verdict event t w.focus
    let (t, crew) := turn event (t.cut event.node out) crew
    (t, { w with focus } :: crew)

/-- What is left when events are played to a crew one after the other. -/
def play (events : List Event) (s : Tree × List Worker) : Tree × List Worker :=
  events.foldl (fun (t, crew) event => turn event t crew) s

theorem play_cons (event : Event) (events : List Event) (t : Tree) (crew : List Worker) :
    play (event :: events) (t, crew) = play events (turn event t crew) := rfl

theorem play_append (events later : List Event) (s : Tree × List Worker) :
    play (events ++ later) s = play later (play events s) :=
  List.foldl_append

/-- All rules of a crew make only comparisons with a meaning. -/
def SupportedCrew (crew : List Worker) : Prop :=
  ∀ w ∈ crew, w.rule.Supported

section Crews

variable {ω : Type} {event : Event} {t t' : Tree} {crew : List Worker}

theorem rules_turn (event : Event) (t : Tree) (crew : List Worker) :
    (turn event t crew).2.map (·.rule) = crew.map (·.rule) := by
  induction crew generalizing t with
  | nil => rfl
  | cons w crew ih => simp only [turn, List.map_cons, ih]

theorem SupportedCrew.turn (h : SupportedCrew crew) (event : Event) (t : Tree) :
    SupportedCrew (turn event t crew).2 := by
  have hrules : ∀ r ∈ (Pipeline.turn event t crew).2.map (·.rule), r.Supported := by
    rw [rules_turn]
    intro r hr
    obtain ⟨w, hw, rfl⟩ := List.mem_map.mp hr
    exact h w hw
  exact fun w hw => hrules _ (List.mem_map_of_mem hw)

/-- All a crew does to the tree is to take the event's node out or to leave it, and it does the same
wherever the outlook is the same. -/
theorem turn_local (event : Event) (crew : List Worker) (h : t.SameOutlook t' event.node) :
    ∃ out, turn event t crew = (t.cut event.node out, (turn event t crew).2) ∧
      turn event t' crew = (t'.cut event.node out, (turn event t crew).2) := by
  induction crew generalizing t t' with
  | nil => exact ⟨false, rfl, rfl⟩
  | cons w crew ih =>
    obtain ⟨out, ht, ht'⟩ := ih (h.cut (w.rule.verdict event t w.focus).1)
    refine ⟨(w.rule.verdict event t w.focus).1 || out, ?_, ?_⟩
    · simp only [turn]
      rw [ht, Tree.cut_cut]
    · simp only [turn, w.rule.verdict_congr w.focus h]
      rw [ht', Tree.cut_cut]

/-- The stages of a pipeline work as a crew. -/
theorem relay_eq_turn (hcrew : SupportedCrew crew) (event : Event) (t : Tree) (memory : ω) :
    relay event (crew.map Worker.stage) t memory =
      ((turn event t crew).1, { stages := (turn event t crew).2.map Worker.stage, memory }) := by
  induction crew generalizing t with
  | nil => rfl
  | cons w crew ih =>
    have hw : w.rule.Supported := hcrew w List.mem_cons_self
    have ih := fun t => ih (t := t) fun w hw => hcrew w (.tail _ hw)
    have hreact : w.stage.processor.react event ⟨t, w.focus, memory⟩ =
        (⟨t.cut event.node (w.rule.verdict event t w.focus).1,
          (w.rule.verdict event t w.focus).2, memory⟩, none) := by
      simp only [Worker.stage, Rule.processor, ElementRule.step_eq hw]
    have hstate : (w.stage : Stage Focus ω).state = w.focus := rfl
    simp only [List.map_cons, relay, hstate, hreact, ih, turn]
    rfl

/-- A run in which a crew is at work, without a failure so far. -/
def Crewed (memory : ω) (run : Run Focus ω) : Prop :=
  ∃ crew, SupportedCrew crew ∧ run = { stages := crew.map Worker.stage, memory }

theorem observer_eq_turn (hcrew : SupportedCrew crew) (event : Event) (t : Tree) (memory : ω) :
    observer event (t, { stages := crew.map Worker.stage, memory }) =
      ((turn event t crew).1, { stages := (turn event t crew).2.map Worker.stage, memory }) :=
  relay_eq_turn hcrew event t memory

theorem local_observer (memory : ω) : (observer : Observer (Run Focus ω)).Local (Crewed memory) := by
  rintro event t t' run ⟨crew, hcrew, rfl⟩ h
  obtain ⟨out, ht, ht'⟩ := turn_local event crew h
  refine ⟨out, _, ⟨_, hcrew.turn event t, rfl⟩, ?_, ?_⟩
  · rw [observer_eq_turn hcrew, ht]
  · rw [observer_eq_turn hcrew, ht']

theorem replay_eq_play (hcrew : SupportedCrew crew) (log : List Notice) (t : Tree) (memory : ω) :
    replay observer log (t, { stages := crew.map Worker.stage, memory }) =
      ((play (log.map (·.event)) (t, crew)).1,
        { stages := (play (log.map (·.event)) (t, crew)).2.map Worker.stage, memory }) := by
  induction log generalizing t crew with
  | nil => rfl
  | cons n log ih =>
    rw [replay, List.foldl_cons, ← replay, observer_eq_turn hcrew, ih (hcrew.turn n.event t)]
    rfl

end Crews

/-! ## Pipelines -/

section Pipelines

variable {ω : Type}

/-- The processors of the pipeline are those of the rules, in this order. -/
def Obeys (p : Pipeline Focus ω) (rules : List ElementRule) : Prop :=
  p.stages.map (·.processor) = rules.map fun r => (Rule.element r).processor

/-- The rules before a document is read. -/
def crewOf (rules : List ElementRule) : List Worker :=
  rules.map fun r => { rule := r }

@[simp] theorem rules_crewOf (rules : List ElementRule) : (crewOf rules).map (·.rule) = rules := by
  rw [crewOf, List.map_map]
  exact List.map_id rules

theorem resetAll_eq {stages : List (Stage Focus ω)} {rules : List ElementRule}
    (h : stages.map (·.processor) = rules.map fun r => (Rule.element r).processor) (memory : ω) :
    resetAll stages memory = ((crewOf rules).map Worker.stage, memory) := by
  induction stages generalizing rules with
  | nil =>
    rw [List.map_nil, eq_comm, List.map_eq_nil_iff] at h
    rw [h]
    rfl
  | cons s stages ih =>
    cases rules with
    | nil => simp at h
    | cons r rules =>
      rw [List.map_cons, List.map_cons, List.cons.injEq] at h
      have hreset : s.processor.reset (s.state, memory) = ({}, memory) := by
        rw [h.1]
        rfl
      have hstage : ({ s with state := {} } : Stage Focus ω) = Worker.stage { rule := r } := by
        rw [Worker.stage, ← h.1]
      simp only [resetAll, hreset, ih h.2, hstage]
      rfl

/-- **The tree that a pipeline of element rules leaves** is what its rules leave of the finished
document when its events are played to them; a root that they took out is made good. -/
theorem treeOf_eq_play {p : Pipeline Focus ω} {rules : List ElementRule} (hp : Obeys p rules)
    (hrules : ∀ r ∈ rules, r.Supported) {q q' : Parser} {input : String} {t : Tree}
    (hparse : q.parse input = (.ok t, q')) (hunmoved : Unmoved q'.issues) (memory : ω) :
    (p.treeOf memory input).1 =
      .ok (play ((sourceLog input).map (·.event)) (t, crewOf rules)).1.rooted := by
  have hcrew : SupportedCrew (crewOf rules) := by
    intro w hw
    obtain ⟨r, hr, rfl⟩ := List.mem_map.mp hw
    exact hrules r hr
  obtain ⟨u, run, gone, hreplay, -, -, hparsed⟩ :=
    parseWith_eq_replay (local_observer memory) ⟨_, hcrew, rfl⟩ (recorded_of_parse hparse) hunmoved
  have hsame : p.parser.parseWith observer
      { stages := (crewOf rules).map Worker.stage, memory } input =
        q.parseWith observer { stages := (crewOf rules).map Worker.stage, memory } input := rfl
  rw [replay_eq_play hcrew, Prod.mk.injEq] at hreplay
  obtain ⟨rfl, rfl⟩ := hreplay
  simp only [Pipeline.treeOf, resetAll_eq hp, hsame, hparsed]

end Pipelines

end Hypertext.Pipeline
