/-
The tokens of a whole document, each with the index of the character that
completed it; and, where a document cannot be read to its end, the place and
the characters around it.
-/
import Hypertext.Text.Literal
import Hypertext.Markup.Tokenizer

namespace Hypertext.Markup

open Automaton

abbrev Position := Configuration Mode Buffers

/-- The machine refused the character at `index`. -/
structure Failure where
  index : Nat
  /-- Up to forty characters, from twenty before the place on. -/
  window : String
  fault : Fault Char Mode
  deriving DecidableEq

def windowAt (input : List Char) (index : Nat) : String :=
  String.ofList ((input.drop (index - 20)).take 40)

def Failure.locate (input : List Char) (index : Nat) (fault : Fault Char Mode) : Failure :=
  { index, window := windowAt input index, fault }

def Failure.message (f : Failure) : String :=
  "state machine failed at index " ++ toString f.index ++ " in " ++ Literal.ofString f.window

def faultMessage : Fault Char Mode → String :=
  Fault.message Literal.ofChar Mode.show

/-- What reading a document leaves: its tokens, what was refused if anything was, and where the
machine stopped. -/
structure Reading where
  tokens : List (Nat × Token)
  refused : Option (Nat × Fault Char Mode) := none
  stopped : Position

/-- Reads on from a position, the next character being number `index`. -/
def readFrom (p : Position) (index : Nat) : List Char → Reading
  | [] =>
    let step := tokenizer.finish p
    { tokens := step.events.map (index, ·), stopped := step.configuration }
  | c :: cs =>
    let step := tokenizer.step p c
    match step.fault with
    | some fault => { tokens := [], refused := some (index, fault), stopped := step.configuration }
    | none =>
      let later := readFrom step.configuration (index + 1) cs
      { later with tokens := step.events.map (index, ·) ++ later.tokens }

def read (input : List Char) : Reading :=
  readFrom tokenizer.start 0 input

def Reading.failure? (r : Reading) (input : List Char) : Option Failure :=
  r.refused.map fun (index, fault) => .locate input index fault

/-- The tokens of a document. -/
def tokensOf (input : String) : Except Failure (List Token) :=
  let reading := read input.toList
  match reading.failure? input.toList with
  | some failure => .error failure
  | none => .ok (reading.tokens.map (·.2))

end Hypertext.Markup
