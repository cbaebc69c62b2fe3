/-
Automata over characters that are given as data: states are names, the data is
a counter (64 bits, signed, which wraps) with a text, and an action is a list
of instructions.
-/
import Hypertext.Text.Ascii
import Hypertext.Automaton.Basic

namespace Hypertext.Automaton.Script

structure Store where
  count : Int64 := 0
  text : String := ""
  deriving DecidableEq

structure Note where
  kind : Int
  payload : String
  deriving DecidableEq

inductive Instruction where
  | add (amount : Int64)
  /-- Appends the symbol, if there is one. -/
  | push
  | append (text : String)
  | put (store : Store)
  /-- Without a payload the note carries the text as it is then. -/
  | emit (kind : Int) (payload : Option String)
  | goto (state : String)
  | ifCount (count : Int64) (body : List Instruction)

mutual

def Instruction.run (symbol : Option Char) (e : Effect String Store Note) :
    Instruction → Effect String Store Note
  | .add n => { e with data := { e.data with count := e.data.count + n } }
  | .push =>
    match symbol with
    | some c => { e with data := { e.data with text := e.data.text.push c } }
    | none => e
  | .append s => { e with data := { e.data with text := e.data.text ++ s } }
  | .put store => { e with data := store }
  | .emit kind payload => { e with events := e.events ++ [⟨kind, payload.getD e.data.text⟩] }
  | .goto state => { e with target := some state }
  | .ifCount n body => if e.data.count = n then runAll symbol e body else e

def runAll (symbol : Option Char) (e : Effect String Store Note) :
    List Instruction → Effect String Store Note
  | [] => e
  | i :: rest => runAll symbol (i.run symbol e) rest

end

/-- The ASCII classes a pattern may name. -/
inductive CharClass where
  | digit
  | alphabetic
  | alphanumeric
  | whitespace
  | uppercase
  | everything

def CharClass.contains : CharClass → Char → Bool
  | .digit => Char.isDigit
  | .alphabetic => Char.isAlpha
  | .alphanumeric => Char.isAlphanum
  | .whitespace => isBlank
  | .uppercase => Char.isUpper
  | .everything => fun _ => true

def transition (target : String) (body : List Instruction) : Transition Char String Store Note where
  target
  action c data := runAll (some c) { data } body

abbrev ScriptMachine := Machine Char String Store Note

def machine (initial : String) (data : Store) (states : List (String × Rules Char String Store Note))
    (finished : List Instruction) : ScriptMachine :=
  states.foldl (fun m (name, rules) => m.withRules name rules)
    { initial, initialData := data, finished := fun data => runAll none { data } finished }

/-- A machine under way, with the kinds its listeners wait for. -/
structure Session where
  machine : ScriptMachine
  current : Configuration String Store
  listeners : List Int := []

def Session.ofMachine (machine : ScriptMachine) : Session :=
  { machine, current := machine.start }

/-- What a step of a session shows: the refusal, if any, and what the listeners heard. -/
structure Report where
  fault : Option (Fault Char String) := none
  heard : List (Nat × Note) := []

def Session.listen (s : Session) (kind : Int) : Session :=
  { s with listeners := s.listeners ++ [kind] }

def Session.after (s : Session) (step : Step Char String Store Note) : Session × Report :=
  ({ s with current := step.configuration },
    { fault := step.fault, heard := deliveries Note.kind s.listeners step.events })

def Session.feed (s : Session) (input : String) : Session × Report :=
  s.after (s.machine.run s.current input.toList)

def Session.finish (s : Session) : Session × Report :=
  s.after (s.machine.finish s.current)

def Session.reset (s : Session) : Session :=
  { s with current := s.machine.start }

end Hypertext.Automaton.Script
