/-
Table-driven automata. A machine has, for each state in its table, rows tried
in order and perhaps a transition for all other symbols; a transition names
its target and may act: change the data, raise events, choose another target.

`step` is one symbol, `finish` the end of the input, `start` the way back
to the beginning. A configuration is all that changes between them. What an
action did to the data stays done also where the target turns out to have no
table; where no row accepts, nothing happens at all.
-/
namespace Hypertext.Automaton

inductive Pattern (Symbol : Type) where
  | is (symbol : Symbol)
  | any (symbols : List Symbol)
  | matching (holds : Symbol → Bool)

variable {Symbol State Data Event Kind : Type}

def Pattern.accepts [DecidableEq Symbol] : Pattern Symbol → Symbol → Bool
  | .is t, s => t = s
  | .any ts, s => ts.contains s
  | .matching holds, s => holds s

/-- What an action leaves: the data, a target if it chose one, the events it raised in order. -/
structure Effect (State Data Event : Type) where
  data : Data
  target : Option State := none
  events : List Event := []

structure Transition (Symbol State Data Event : Type) where
  target : State
  action : Symbol → Data → Effect State Data Event := fun _ data => { data }

/-- The table of one state. -/
structure Rules (Symbol State Data Event : Type) where
  rows : List (Pattern Symbol × Transition Symbol State Data Event) := []
  otherwise : Option (Transition Symbol State Data Event) := none

/-- The transition of the first row that accepts the symbol. -/
def Rules.select [DecidableEq Symbol] (rules : Rules Symbol State Data Event) (s : Symbol) :
    Option (Transition Symbol State Data Event) :=
  match rules.rows.find? (·.1.accepts s) with
  | some (_, transition) => some transition
  | none => rules.otherwise

structure Machine (Symbol State Data Event : Type) where
  initial : State
  initialData : Data
  rules : State → Option (Rules Symbol State Data Event) := fun _ => none
  finished : Data → Effect State Data Event := fun data => { data }

/-- The machine with the table of one state added, or replaced. -/
def Machine.withRules [DecidableEq State] (m : Machine Symbol State Data Event) (state : State)
    (rules : Rules Symbol State Data Event) : Machine Symbol State Data Event :=
  { m with rules := fun s => if s = state then some rules else m.rules s }

/-- Why a symbol was refused. -/
inductive Fault (Symbol State : Type) where
  | noTransition (state : State) (symbol : Symbol)
  | unknownState (state : State)
  deriving DecidableEq

def Fault.message (showSymbol : Symbol → String) (showState : State → String) :
    Fault Symbol State → String
  | .noTransition state symbol =>
    "no transition for symbol " ++ showSymbol symbol ++ " in state " ++ showState state
  | .unknownState state =>
    "there is no state named " ++ showState state ++ " in the state machine"

structure Configuration (State Data : Type) where
  state : State
  data : Data
  deriving DecidableEq

/-- What one step leaves. -/
structure Step (Symbol State Data Event : Type) where
  configuration : Configuration State Data
  events : List Event := []
  fault : Option (Fault Symbol State) := none

namespace Machine

variable [DecidableEq Symbol] (m : Machine Symbol State Data Event)

def start : Configuration State Data :=
  ⟨m.initial, m.initialData⟩

def step (c : Configuration State Data) (s : Symbol) : Step Symbol State Data Event :=
  match m.rules c.state with
  | none => { configuration := c, fault := some (.unknownState c.state) }
  | some rules =>
    match rules.select s with
    | none => { configuration := c, fault := some (.noTransition c.state s) }
    | some transition =>
      let effect := transition.action s c.data
      let next := effect.target.getD transition.target
      match m.rules next with
      | none =>
        { configuration := ⟨c.state, effect.data⟩, events := effect.events,
          fault := some (.unknownState next) }
      | some _ => { configuration := ⟨next, effect.data⟩, events := effect.events }

/-- The end of the input: the state stays, whatever target the handler chose. -/
def finish (c : Configuration State Data) : Step Symbol State Data Event :=
  let effect := m.finished c.data
  { configuration := ⟨c.state, effect.data⟩, events := effect.events }

/-- Symbols one after the other, up to the first that is refused. -/
def run : Configuration State Data → List Symbol → Step Symbol State Data Event
  | c, [] => { configuration := c }
  | c, s :: rest =>
    let step := m.step c s
    match step.fault with
    | some _ => step
    | none =>
      let later := run step.configuration rest
      { later with events := step.events ++ later.events }

end Machine

/-- What listeners hear, given the kinds they listen for in the order they were registered:
each event, in turn, goes to every listener of its kind. -/
def deliveries [DecidableEq Kind] (kind : Event → Kind) (listeners : List Kind)
    (events : List Event) : List (Nat × Event) :=
  events.flatMap fun event =>
    listeners.zipIdx.filterMap fun (wanted, listener) =>
      if wanted = kind event then some (listener, event) else none

end Hypertext.Automaton
