/-
Runs of any automaton: one built in any way, given symbols, ends of input and
resets in any order (`runs_of_built`). It is always in a state of its table, or
it never leaves the state it began in. What a symbol does there is one of four
things (`Dispatched`): an unknown state and a symbol that no row accepts change
nothing; an unknown target leaves the state, but what the action did on the way
stays done.

An action may write, raise events and choose targets as often as it likes, and
what is left of that is the last write, the last target and all the events
(`perform_eq`).
-/
import Mathlib.Data.List.Induction
import Hypertext.Automaton.Basic

namespace Hypertext.Automaton

variable {Symbol State Data Event Kind : Type}

/-! ## Actions -/

/-- One thing that an action does. -/
inductive Deed (State Data Event : Type) where
  | write (data : Data)
  | raise (event : Event)
  | goto (state : State)

namespace Deed

def written? : Deed State Data Event → Option Data
  | .write data => some data
  | _ => none

def raised? : Deed State Data Event → Option Event
  | .raise event => some event
  | _ => none

def chosen? : Deed State Data Event → Option State
  | .goto state => some state
  | _ => none

/-- The deed, after what has been done before. -/
def run (e : Effect State Data Event) : Deed State Data Event → Effect State Data Event
  | .write data => { e with data }
  | .raise event => { e with events := e.events ++ [event] }
  | .goto state => { e with target := some state }

end Deed

/-- Deeds done one after the other. -/
def perform (data : Data) (deeds : List (Deed State Data Event)) : Effect State Data Event :=
  deeds.foldl Deed.run { data }

theorem perform_concat (data : Data) (deeds : List (Deed State Data Event)) (d : Deed State Data Event) :
    perform data (deeds ++ [d]) = d.run (perform data deeds) := by
  rw [perform, List.foldl_append]
  rfl

/-- Of what was written and chosen the last stays, of what was raised all. -/
theorem perform_eq (data : Data) (deeds : List (Deed State Data Event)) :
    perform data deeds =
      { data := (deeds.filterMap Deed.written?).getLast?.getD data
        target := (deeds.filterMap Deed.chosen?).getLast?
        events := deeds.filterMap Deed.raised? } := by
  induction deeds using List.reverseRecOn with
  | nil => rfl
  | append_singleton deeds d ih =>
    rw [perform_concat, ih]
    cases d <;> simp [Deed.run, Deed.written?, Deed.raised?, Deed.chosen?]

theorem foldl_raise (e : Effect State Data Event) (events : List Event) :
    (events.map .raise).foldl Deed.run e = { e with events := e.events ++ events } := by
  induction events generalizing e with
  | nil => rw [List.append_nil]; rfl
  | cons event events ih =>
    rw [List.map_cons, List.foldl_cons, ih]
    simp only [Deed.run, List.append_assoc, List.singleton_append]

/-- Whatever an action leaves, some deeds leave it. -/
theorem exists_deeds (data : Data) (e : Effect State Data Event) : ∃ deeds, e = perform data deeds := by
  obtain ⟨data', target, events⟩ := e
  refine ⟨.write data' :: (events.map .raise ++ (target.map .goto).toList), ?_⟩
  rw [perform, List.foldl_cons, List.foldl_append, foldl_raise]
  cases target <;> rfl

/-! ## Tables -/

namespace Rules

variable [DecidableEq Symbol]

/-- The transition stands in the first row that accepts the symbol; or none does, and it is the one for
all others. -/
inductive Picks (rules : Rules Symbol State Data Event) (s : Symbol) :
    Transition Symbol State Data Event → Prop where
  | row {t before p after} : rules.rows = before ++ (p, t) :: after →
    (∀ row ∈ before, row.1.accepts s = false) → p.accepts s = true → Picks rules s t
  | otherwise {t} : (∀ row ∈ rules.rows, row.1.accepts s = false) → rules.otherwise = some t →
    Picks rules s t

/-- No row accepts the symbol, and there is no transition for all others. -/
def Refuses (rules : Rules Symbol State Data Event) (s : Symbol) : Prop :=
  (∀ row ∈ rules.rows, row.1.accepts s = false) ∧ rules.otherwise = none

variable {rules : Rules Symbol State Data Event} {s : Symbol} {t : Transition Symbol State Data Event}

theorem find?_eq_none_iff {rows : List (Pattern Symbol × Transition Symbol State Data Event)} :
    rows.find? (·.1.accepts s) = none ↔ ∀ row ∈ rows, row.1.accepts s = false := by
  simp only [List.find?_eq_none, Bool.not_eq_true]

theorem picks_iff : rules.Picks s t ↔ rules.select s = some t := by
  constructor
  · rintro (⟨hrows, hbefore, haccepts⟩ | ⟨hnone, hother⟩)
    · have hskipped := find?_eq_none_iff.mpr hbefore
      simp [select, hrows, List.find?_append, hskipped, haccepts]
    · simp only [select, find?_eq_none_iff.mpr hnone, hother]
  · intro h
    simp only [select] at h
    split at h
    · next p t' hfind =>
      cases h
      obtain ⟨haccepts, before, after, hrows, hbefore⟩ := List.find?_eq_some_iff_append.mp hfind
      exact .row hrows (fun row hrow => by simpa using hbefore row hrow) haccepts
    · next hfind => exact .otherwise (find?_eq_none_iff.mp hfind) h

theorem refuses_iff : rules.Refuses s ↔ rules.select s = none := by
  rw [Refuses, ← find?_eq_none_iff, select]
  cases rules.rows.find? (·.1.accepts s) <;> simp

end Rules

/-! ## Machines -/

/-- A call that goes into the making of a machine. -/
inductive Part (Symbol State Data Event : Type) where
  | state (name : State) (rules : Rules Symbol State Data Event)
  | finished (handler : Data → Effect State Data Event)

/-- The table of a state, if the part is one for it. -/
def Part.table? [DecidableEq State] (q : State) :
    Part Symbol State Data Event → Option (Rules Symbol State Data Event)
  | .state name rules => if name = q then some rules else none
  | .finished _ => none

/-- A call on a machine under way. -/
inductive Signal (Symbol : Type) where
  | symbol (s : Symbol)
  | finish
  | reset

namespace Machine

def add [DecidableEq State] (m : Machine Symbol State Data Event) :
    Part Symbol State Data Event → Machine Symbol State Data Event
  | .state name rules => m.withRules name rules
  | .finished handler => { m with finished := handler }

/-- The machine made of the parts. -/
def build [DecidableEq State] (initial : State) (initialData : Data)
    (parts : List (Part Symbol State Data Event)) : Machine Symbol State Data Event :=
  parts.foldl add { initial, initialData }

section Building

variable [DecidableEq State]

/-- What begins a machine no part of it changes. -/
theorem start_build [DecidableEq Symbol] (initial : State) (initialData : Data) (parts : List (Part Symbol State Data Event)) :
    (build initial initialData parts).start = ⟨initial, initialData⟩ := by
  induction parts using List.reverseRecOn with
  | nil => rfl
  | append_singleton parts part ih =>
    rw [build, List.foldl_append, ← build]
    cases part <;> exact ih

/-- The table of a state is the last one that was given for it. -/
theorem rules_build (initial : State) (initialData : Data) (parts : List (Part Symbol State Data Event))
    (q : State) :
    (build initial initialData parts).rules q = (parts.filterMap (Part.table? q)).getLast? := by
  induction parts using List.reverseRecOn with
  | nil => rfl
  | append_singleton parts part ih =>
    rw [build, List.foldl_append, ← build, List.filterMap_append]
    cases part with
    | state name rules =>
      by_cases hq : name = q
      · simp [add, withRules, Part.table?, hq]
      · simpa [add, withRules, Part.table?, hq, Ne.symm hq] using ih
    | finished handler => simpa [add, Part.table?] using ih

end Building

variable [DecidableEq Symbol] (m : Machine Symbol State Data Event)

/-! ## One call -/

/-- What a call does. -/
def signal (c : Configuration State Data) : Signal Symbol → Step Symbol State Data Event
  | .symbol s => m.step c s
  | .finish => m.finish c
  | .reset => { configuration := m.start }

end Machine

/-- Where a transition leads whose action does these deeds. -/
def Transition.goal (t : Transition Symbol State Data Event) (deeds : List (Deed State Data Event)) :
    State :=
  (deeds.filterMap Deed.chosen?).getLast?.getD t.target

/-- The action of the transition has done its deeds, once. What it wrote and raised is there whether
or not there is a table for the state that the transition leads to. -/
structure Acted (table : State → Option (Rules Symbol State Data Event)) (c : Configuration State Data)
    (t : Transition Symbol State Data Event) (deeds : List (Deed State Data Event))
    (step : Step Symbol State Data Event) : Prop where
  data : step.configuration.data = (deeds.filterMap Deed.written?).getLast?.getD c.data
  events : step.events = deeds.filterMap Deed.raised?
  arrived : table (t.goal deeds) ≠ none →
    step.configuration.state = t.goal deeds ∧ step.fault = none
  stranded : table (t.goal deeds) = none →
    step.configuration.state = c.state ∧ step.fault = some (.unknownState (t.goal deeds))

namespace Machine

section Steps

variable [DecidableEq Symbol] {m : Machine Symbol State Data Event} {c : Configuration State Data}
  {s : Symbol} {rules : Rules Symbol State Data Event} {t : Transition Symbol State Data Event}

theorem step_unknown (h : m.rules c.state = none) (s : Symbol) :
    m.step c s = { configuration := c, fault := some (.unknownState c.state) } := by
  simp only [step, h]

theorem step_refused (h : m.rules c.state = some rules) (hrefuses : rules.Refuses s) :
    m.step c s = { configuration := c, fault := some (.noTransition c.state s) } := by
  simp only [step, h, Rules.refuses_iff.mp hrefuses]

theorem acted_step (h : m.rules c.state = some rules) (hpicks : rules.Picks s t)
    {deeds : List (Deed State Data Event)} (hdeeds : t.action s c.data = perform c.data deeds) :
    Acted m.rules c t deeds (m.step c s) := by
  have hgoal : (t.action s c.data).target.getD t.target = t.goal deeds := by
    rw [hdeeds, perform_eq, Transition.goal]
  simp only [step, h, Rules.picks_iff.mp hpicks, hgoal]
  rw [hdeeds, perform_eq]
  cases hnext : m.rules (t.goal deeds) with
  | none => exact ⟨rfl, rfl, fun hknown => absurd hnext hknown, fun _ => ⟨rfl, rfl⟩⟩
  | some next => exact ⟨rfl, rfl, fun _ => ⟨rfl, rfl⟩, fun hunknown => by simp [hnext] at hunknown⟩

/-- A symbol is refused for want of a row only where the table says so. -/
theorem refuses_of_noTransition {q : State} {symbol : Symbol}
    (h : (m.step c s).fault = some (.noTransition q symbol)) :
    ∃ rules, m.rules c.state = some rules ∧ rules.Refuses s := by
  cases hrules : m.rules c.state with
  | none =>
    rw [step_unknown hrules] at h
    cases h
  | some rules =>
    refine ⟨rules, rfl, Rules.refuses_iff.mpr ?_⟩
    cases hselect : rules.select s with
    | none => rfl
    | some t =>
      obtain ⟨deeds, hdeeds⟩ := exists_deeds c.data (t.action s c.data)
      have hacted := acted_step hrules (Rules.picks_iff.mpr hselect) hdeeds
      cases hnext : m.rules (t.goal deeds) with
      | none =>
        rw [(hacted.stranded hnext).2] at h
        cases h
      | some next =>
        rw [(hacted.arrived (by simp [hnext])).2] at h
        cases h

/-- A call leaves the state, or goes back to the first one, or goes on in the table. -/
theorem state_signal (c : Configuration State Data) (signal : Signal Symbol) :
    let q := (m.signal c signal).configuration.state
    q = c.state ∨ q = m.initial ∨ (m.rules c.state ≠ none ∧ m.rules q ≠ none) := by
  cases signal with
  | symbol s =>
    simp only [Machine.signal, step]
    split
    · exact .inl rfl
    · next rules hrules =>
      split
      · exact .inl rfl
      · split
        · exact .inl rfl
        · next next hnext => exact .inr (.inr ⟨by simp [hrules], by simp [hnext]⟩)
  | finish => exact .inl rfl
  | reset => exact .inr (.inl rfl)

end Steps

/-! ## Runs -/

variable [DecidableEq Symbol] (m : Machine Symbol State Data Event)

/-- What the calls do, one after the other. -/
def stepsFrom : Configuration State Data → List (Signal Symbol) → List (Step Symbol State Data Event)
  | _, [] => []
  | c, signal :: rest => m.signal c signal :: stepsFrom (m.signal c signal).configuration rest

/-- Where the machine is after the calls. -/
def after (signals : List (Signal Symbol)) : Configuration State Data :=
  signals.foldl (fun c signal => (m.signal c signal).configuration) m.start

/-- What the listeners hear of the calls. -/
def heard [DecidableEq Kind] (kind : Event → Kind) (listeners : List Kind)
    (signals : List (Signal Symbol)) : List (Nat × Event) :=
  (m.stepsFrom m.start signals).flatMap fun step => deliveries kind listeners step.events

variable (signals : List (Signal Symbol))

theorem after_concat (signal : Signal Symbol) :
    m.after (signals ++ [signal]) = (m.signal (m.after signals) signal).configuration := by
  rw [after, List.foldl_append]
  rfl

variable {m}

theorem known_after (h : m.rules m.initial ≠ none) : m.rules (m.after signals).state ≠ none := by
  induction signals using List.reverseRecOn with
  | nil => exact h
  | append_singleton signals signal ih =>
    rw [after_concat]
    rcases m.state_signal (m.after signals) signal with hsame | hinitial | ⟨-, hknown⟩
    · rwa [hsame]
    · rwa [hinitial]
    · exact hknown

theorem initial_after (h : m.rules m.initial = none) : (m.after signals).state = m.initial := by
  induction signals using List.reverseRecOn with
  | nil => rfl
  | append_singleton signals signal ih =>
    rw [after_concat]
    rcases m.state_signal (m.after signals) signal with hsame | hinitial | ⟨hknown, -⟩
    · exact hsame.trans ih
    · exact hinitial
    -- Without a table for the state there is no action that could lead out of it.
    · exact absurd (ih ▸ h) hknown

end Machine

/-! ## Listeners -/

section Listeners

variable [DecidableEq Kind]

/-- An event goes to the listeners of its kind, once to each, in the order of their registration. -/
theorem deliver_eq (listeners : List Kind) (wanted : Kind) (event : Event) :
    (listeners.zipIdx.filterMap fun (k, i) => if k = wanted then some (i, event) else none) =
      ((List.range listeners.length).filter fun i => listeners[i]? = some wanted).map (·, event) := by
  induction listeners using List.reverseRecOn with
  | nil => rfl
  | append_singleton listeners k ih =>
    have hbefore : ((List.range listeners.length).filter fun i => (listeners ++ [k])[i]? = some wanted) =
        (List.range listeners.length).filter fun i => listeners[i]? = some wanted :=
      List.filter_congr fun i hi => by rw [List.getElem?_append_left (List.mem_range.mp hi)]
    rw [List.zipIdx_append, List.filterMap_append, ih, List.length_append, List.length_singleton,
      List.range_succ, List.filter_append, hbefore, List.map_append]
    by_cases hk : k = wanted <;> simp [hk]

theorem Machine.heard_eq [DecidableEq Symbol] (m : Machine Symbol State Data Event) (kind : Event → Kind)
    (listeners : List Kind) (signals : List (Signal Symbol)) : m.heard kind listeners signals =
      ((m.stepsFrom m.start signals).flatMap (·.events)).flatMap fun event =>
        ((List.range listeners.length).filter fun i => listeners[i]? = some (kind event)).map (·, event) := by
  simp only [heard, deliveries, deliver_eq, List.flatMap_assoc]

end Listeners

/-- **Runs of any automaton**, after any symbols, ends of input and resets. If the first state has a
table, the state always has one; if not, the machine never leaves it, and each symbol is refused
without anything being done. Where the state has a table, a symbol is refused for want of a row just
where no row accepts it and there is no transition for all others, and then nothing changes. Otherwise
there is one transition that is picked, its action is done once, and the machine is where that leads,
or, if there is no table for that, where it was, and says so. The end of the input leaves the state,
a reset leads back to the start. Each event of each call is heard by the listeners of its kind, once
by each, in the order of their registration. -/
theorem runs_of_built [DecidableEq Symbol] [DecidableEq State] [DecidableEq Kind] (initial : State)
    (initialData : Data) (parts : List (Part Symbol State Data Event)) (kind : Event → Kind)
    (listeners : List Kind) (signals : List (Signal Symbol)) :
    let m := Machine.build initial initialData parts
    let table := fun q => (parts.filterMap (Part.table? q)).getLast?
    let c := m.after signals
    (table initial ≠ none → table c.state ≠ none) ∧
    (table initial = none → c.state = initial ∧
      ∀ s, m.step c s = { configuration := c, fault := some (.unknownState initial) }) ∧
    (∀ s, ((∃ q symbol, (m.step c s).fault = some (.noTransition q symbol)) ↔
        ∃ rules, table c.state = some rules ∧ rules.Refuses s) ∧
      ∀ rules, table c.state = some rules →
        (rules.Refuses s →
          m.step c s = { configuration := c, fault := some (.noTransition c.state s) }) ∧
        (¬ rules.Refuses s → ∃ t, (∀ u, rules.Picks s u ↔ u = t) ∧
          ∀ deeds, t.action s c.data = perform c.data deeds → Acted table c t deeds (m.step c s))) ∧
    (m.finish c).configuration.state = c.state ∧
    m.after (signals ++ [.reset]) = ⟨initial, initialData⟩ ∧
    m.heard kind listeners signals =
      ((m.stepsFrom ⟨initial, initialData⟩ signals).flatMap (·.events)).flatMap fun event =>
        ((List.range listeners.length).filter fun i => listeners[i]? = some (kind event)).map (·, event) := by
  intro m table c
  have hrules : m.rules = table := funext (Machine.rules_build initial initialData parts)
  have hstart : m.start = ⟨initial, initialData⟩ := Machine.start_build initial initialData parts
  have hinitial : m.initial = initial := congrArg Configuration.state hstart
  rw [← hrules, ← hstart, ← hinitial]
  refine ⟨Machine.known_after signals, fun hunknown => ?_, fun s => ⟨⟨?_, ?_⟩, fun rules hstate => ⟨?_, ?_⟩⟩,
    rfl, ?_, ?_⟩
  · have hstays := Machine.initial_after signals hunknown
    refine ⟨hstays, fun s => ?_⟩
    rw [← hstays] at hunknown ⊢
    exact Machine.step_unknown hunknown s
  · rintro ⟨q, symbol, hfault⟩
    exact Machine.refuses_of_noTransition hfault
  · rintro ⟨rules, hstate, hrefuses⟩
    exact ⟨c.state, s, by rw [Machine.step_refused hstate hrefuses]⟩
  · exact Machine.step_refused hstate
  · intro hpicked
    obtain ⟨t, hselect⟩ := Option.ne_none_iff_exists'.mp (mt Rules.refuses_iff.mpr hpicked)
    refine ⟨t, fun u => ?_, fun deeds hdeeds => Machine.acted_step hstate (Rules.picks_iff.mpr hselect) hdeeds⟩
    rw [Rules.picks_iff, hselect, Option.some.injEq, eq_comm]
  · rw [Machine.after_concat]
    rfl
  · rw [Machine.heard_eq]

/-- A machine of one state, whose only action writes, raises and then goes astray. It stays where it is
with what the action wrote, both listeners have heard the event, and another symbol is refused. -/
theorem runs_of_built_astray :
    let deeds : List (Deed Nat Nat Char) := [.goto 0, .write 5, .raise 'x', .goto 7]
    let rules : Rules Char Nat Nat Char :=
      { rows := [(.is 'a', { target := 0, action := fun _ data => perform data deeds })] }
    let m := Machine.build 0 1 [.state 0 {}, .state 0 rules]
    (m.step m.start 'a').fault = some (.unknownState 7) ∧
      (m.step (m.after [.symbol 'a']) 'b' =
        { configuration := ⟨0, 5⟩, fault := some (.noTransition 0 'b') }) ∧
      m.heard (fun _ => ()) [(), ()] [.symbol 'a'] = [(0, 'x'), (1, 'x')] := by
  intro deeds rules m
  obtain ⟨-, -, hsymbols, -⟩ :=
    runs_of_built 0 1 [.state 0 {}, .state 0 rules] (fun _ => ()) [(), ()] []
  obtain ⟨-, -, hlater, -, -, hheard⟩ :=
    runs_of_built 0 1 [.state 0 {}, .state 0 rules] (fun _ => ()) [(), ()] [.symbol 'a']
  have hpicked : ¬ rules.Refuses 'a' := fun h => by simpa [Pattern.accepts, rules] using h.1
  have hrefused : rules.Refuses 'b' := ⟨by simp [rules, Pattern.accepts], rfl⟩
  obtain ⟨t, hunique, hacted⟩ := ((hsymbols 'a').2 rules rfl).2 hpicked
  have hrows : rules.rows = [] ++ rules.rows.head (by simp [rules]) :: [] := rfl
  obtain rfl := (hunique _).mp (.row hrows (by simp) rfl)
  exact ⟨((hacted deeds rfl).stranded rfl).2, ((hlater 'b').2 rules rfl).1 hrefused, hheard⟩

end Hypertext.Automaton
