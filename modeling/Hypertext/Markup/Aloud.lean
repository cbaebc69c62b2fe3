/-
Growth aloud: statement by statement, with a console at hand. An oddity is
warned of at the moment it is put down, between what was done before it and
what comes after, so that a document which breaks off has been warned of up to
there. The tokens of a character are taken before the next character is read.
-/
import Hypertext.Console.Basic
import Hypertext.Markup.Parser

namespace Hypertext.Markup

namespace Aloud

open Automaton Growth

/-- An act of a growth that has a console at hand. -/
abbrev Act (ω α : Type) := StateM (Growth ω × Console) α

variable {ω : Type}

/-! ## Single acts -/

def growth : Act ω (Growth ω) :=
  return (← get).1

/-- Changes the growth without a word. -/
def silently (f : Growth ω → Growth ω) : Act ω Unit :=
  modify fun (g, c) => (f g, c)

/-- Puts down an oddity, and warns of it. -/
def report (index : Nat) (oddity : Oddity) : Act ω Unit :=
  modify fun (g, c) => (g.report index oddity, c.warnOf oddity)

def create (content : Content) : Act ω NodeId := do
  let (id, tree) := (← growth).tree.create content
  silently fun g => { g with tree }
  return id

/-- Appends a node, or leaves the tree as it is and says why. -/
def append (parent child : NodeId) : Act ω (Except InsertError Unit) := do
  match (← growth).tree.append parent child with
  | .ok tree =>
    silently fun g => { g with tree }
    return .ok ()
  | .error e => return .error e

/-! ## Tokens -/

def takeText (observer : Observer ω) (index : Nat) (s : String) : Act ω Unit := do
  let id ← create (.text s)
  match ← append (← growth).innermost id with
  | .ok () => silently (notify observer .textCreated id)
  | .error e => report index (.textDropped e)

/-- Puts a new element at the insertion point, and a second root into the one there is. -/
def place (index : Nat) (id : NodeId) (tag : String) : Act ω Bool := do
  match ← append (← growth).innermost id with
  | .ok () => return true
  | .error .secondRoot =>
    let t := (← growth).tree
    match t.body?.or t.documentElement? with
    | none => return false
    | some refuge =>
      report index (.movedIntoRoot tag)
      match ← append refuge id with
      | .ok () => return true
      | .error e =>
        report index (.dropped tag e)
        return false
  | .error e =>
    report index (.elementDropped e)
    return false

def takeStart (observer : Observer ω) (index : Nat) (tag : String) (attributes : List Attribute) :
    Act ω Unit := do
  let id ← create (.element { Element.ofTag tag with attributes := .ofList attributes })
  if ← place index id tag then
    silently (openBetween id)
    silently (notify observer .elementStarted id)
    if isVoid tag then
      silently (notify observer .elementEnded id)
    else
      silently fun g => { g with stack := ⟨id, true⟩ :: g.stack }

def closeImplicitly (observer : Observer ω) (index : Nat) (o : OpenElement) : Act ω Unit := do
  if o.announced then
    report index (.closedImplicitly (((← growth).tree.tag? o.id).getD ""))
    silently (notify observer .elementEnded o.id)

def closeAll (observer : Observer ω) (index : Nat) : List OpenElement → Act ω Unit
  | [] => return
  | o :: os => do
    closeImplicitly observer index o
    closeAll observer index os

def takeEnd (observer : Observer ω) (index : Nat) (tag : String) : Act ω Unit := do
  if isVoid tag then
    return
  let g ← growth
  let isOther : OpenElement → Bool := fun o => g.tree.tag? o.id ≠ some tag
  match g.stack.dropWhile isOther with
  | [] => report index (.unmatchedEnd tag)
  | closed :: rest =>
    silently fun g => { g with stack := rest }
    closeAll observer index (g.stack.takeWhile isOther)
    silently (announceEnd observer · closed)

def take (observer : Observer ω) : Nat × Token → Act ω Unit
  | (index, .text s) => takeText observer index s
  | (index, .startTag tag attributes) => takeStart observer index tag attributes
  | (index, .endTag tag) => takeEnd observer index tag

def takeAll (observer : Observer ω) : List (Nat × Token) → Act ω Unit
  | [] => return
  | token :: tokens => do
    take observer token
    takeAll observer tokens

def finish (observer : Observer ω) (index : Nat) : Act ω Unit := do
  silently fun g => g.stack.foldl (announceEnd observer) { g with stack := [] }
  if (← growth).tree.documentElement?.isSome then
    return
  let id ← create (.element (.ofTag "HTML"))
  match ← append Tree.root id with
  | .ok () => return
  | .error e => report index (.noRoot e)

/-! ## Documents -/

/-- Reads on from a position, each token being taken with the character that completes it. The
answer is what was refused, if anything was, and where the machine stopped. -/
def readFrom (observer : Observer ω) (p : Position) (index : Nat) :
    List Char → Act ω (Option (Nat × Fault Char Mode) × Position)
  | [] => do
    let step := tokenizer.finish p
    takeAll observer (step.events.map (index, ·))
    finish observer index
    return (none, step.configuration)
  | c :: cs => do
    let step := tokenizer.step p c
    match step.fault with
    | some fault => return (some (index, fault), step.configuration)
    | none =>
      takeAll observer (step.events.map (index, ·))
      readFrom observer step.configuration (index + 1) cs

end Aloud

/-- Reads a document aloud while an observer follows. -/
def Parser.parseAloud {ω : Type} (p : Parser) (observer : Observer ω) (memory : ω) (console : Console)
    (input : String) : Except Failure Tree × ω × Parser × Console :=
  let ((refused, stopped), g, console) :=
    (Aloud.readFrom observer p.reset.position 0 input.toList).run ({ memory }, console)
  let result :=
    match refused with
    | some (index, fault) => .error (.locate input.toList index fault)
    | none => .ok g.tree
  (result, g.memory, { position := stopped, issues := g.issues }, console)

end Hypertext.Markup
