/-
A tree grown from tokens. A stack holds the open elements, the innermost
first: texts and elements go under its top, an end tag closes the innermost
open element of its name with all that was opened inside it.

After each step observers are told of the node and may change the tree. The
stack is kept on its own, not read off the tree, so that growth goes on inside
nodes that observers have moved or taken out.

Wrappers, which no tag in the source stands for, are on the stack unannounced:
nobody is told of their start or their end.
-/
import Hypertext.Tree.Insertion
import Hypertext.Markup.Token

namespace Hypertext.Markup

structure Event where
  kind : EventKind
  node : NodeId
  deriving DecidableEq, Repr

/-- One who is told of each event, and may change the tree and a memory of its own. -/
abbrev Observer (ω : Type) := Event → Tree × ω → Tree × ω

/-- Observers told one after the other. -/
def Observer.all {ω : Type} (observers : List (Observer ω)) : Observer ω :=
  fun event s => observers.foldl (fun s observer => observer event s) s

/-- What was odd about a document and how it was mended. -/
inductive Oddity where
  | unmatchedEnd (tag : String)
  | closedImplicitly (tag : String)
  | movedIntoRoot (tag : String)
  | dropped (tag : String) (error : InsertError)
  | elementDropped (error : InsertError)
  | textDropped (error : InsertError)
  | noRoot (error : InsertError)
  deriving DecidableEq, Repr

def Oddity.message : Oddity → String
  | .unmatchedEnd tag => "unmatched end tag </" ++ tag.toLower ++ "> ignored"
  | .closedImplicitly tag => "<" ++ tag.toLower ++ "> closed implicitly"
  | .movedIntoRoot tag =>
    "<" ++ tag.toLower ++ "> after the root element moved into the document element"
  | .dropped tag error => "<" ++ tag.toLower ++ "> dropped: " ++ error.message
  | .elementDropped error => "element dropped: " ++ error.message
  | .textDropped error => "text dropped: " ++ error.message
  | .noRoot error => "could not create the root element: " ++ error.message

/-- An oddity, and the character that completed the token it came with. -/
structure Issue where
  index : Nat
  oddity : Oddity
  deriving DecidableEq, Repr

def Issue.message (i : Issue) : String :=
  i.oddity.message

structure OpenElement where
  id : NodeId
  announced : Bool
  deriving DecidableEq, Repr

structure Growth (ω : Type) where
  tree : Tree := .empty
  /-- The open elements, the innermost first. -/
  stack : List OpenElement := []
  issues : List Issue := []
  memory : ω

namespace Growth

variable {ω : Type}

def innermost (g : Growth ω) : NodeId :=
  (g.stack.head?.map (·.id)).getD Tree.root

def report (g : Growth ω) (index : Nat) (oddity : Oddity) : Growth ω :=
  { g with issues := g.issues ++ [⟨index, oddity⟩] }

def notify (observer : Observer ω) (kind : EventKind) (id : NodeId) (g : Growth ω) : Growth ω :=
  let (tree, memory) := observer ⟨kind, id⟩ (g.tree, g.memory)
  { g with tree, memory }

def takeText (observer : Observer ω) (index : Nat) (s : String) (g : Growth ω) : Growth ω :=
  let (id, tree) := g.tree.create (.text s)
  match tree.append g.innermost id with
  | .ok tree => notify observer .textCreated id { g with tree }
  | .error e => { g with tree }.report index (.textDropped e)

/-- Puts a new element at the insertion point. A second root goes into the `BODY`, or failing
that into the root there is. The answer is whether the element found a place. -/
def place (index : Nat) (id : NodeId) (tag : String) (g : Growth ω) : Growth ω × Bool :=
  match g.tree.append g.innermost id with
  | .ok tree => ({ g with tree }, true)
  | .error .secondRoot =>
    match g.tree.body?.or g.tree.documentElement? with
    | none => (g, false)
    | some refuge =>
      let g := g.report index (.movedIntoRoot tag)
      match g.tree.append refuge id with
      | .ok tree => ({ g with tree }, true)
      | .error e => (g.report index (.dropped tag e), false)
  | .error e => (g.report index (.elementDropped e), false)

/-- Opens, unannounced, whatever now stands between the insertion point and the element. -/
def openBetween (id : NodeId) (g : Growth ω) : Growth ω :=
  let wrappers := (g.tree.ancestors id).takeWhile (· ≠ g.innermost)
  { g with stack := wrappers.map (⟨·, false⟩) ++ g.stack }

def takeStart (observer : Observer ω) (index : Nat) (tag : String) (attributes : List Attribute)
    (g : Growth ω) : Growth ω :=
  let (id, tree) := g.tree.create
    (.element { Element.ofTag tag with attributes := .ofList attributes })
  match place index id tag { g with tree } with
  | (g, false) => g
  | (g, true) =>
    let g := notify observer .elementStarted id (openBetween id g)
    if isVoid tag then notify observer .elementEnded id g
    else { g with stack := ⟨id, true⟩ :: g.stack }

/-- Closes an element that no end tag of its own closed. -/
def closeImplicitly (observer : Observer ω) (index : Nat) (g : Growth ω) (o : OpenElement) :
    Growth ω :=
  if o.announced then
    notify observer .elementEnded o.id
      (g.report index (.closedImplicitly ((g.tree.tag? o.id).getD "")))
  else g

/-- The end of an element as its observers see it. -/
def announceEnd (observer : Observer ω) (g : Growth ω) (o : OpenElement) : Growth ω :=
  if o.announced then notify observer .elementEnded o.id g else g

/-- An end tag. Void elements have ended when they started, and theirs is passed over. -/
def takeEnd (observer : Observer ω) (index : Nat) (tag : String) (g : Growth ω) : Growth ω :=
  if isVoid tag then g
  else
    let isOther : OpenElement → Bool := fun o => g.tree.tag? o.id ≠ some tag
    match g.stack.dropWhile isOther with
    | [] => g.report index (.unmatchedEnd tag)
    | closed :: rest =>
      announceEnd observer
        ((g.stack.takeWhile isOther).foldl (closeImplicitly observer index) { g with stack := rest })
        closed

def take (observer : Observer ω) (g : Growth ω) : Nat × Token → Growth ω
  | (index, .text s) => g.takeText observer index s
  | (index, .startTag tag attributes) => g.takeStart observer index tag attributes
  | (index, .endTag tag) => g.takeEnd observer index tag

/-- The end of the document: what is open ends, and a document without a root gets one. -/
def finish (observer : Observer ω) (index : Nat) (g : Growth ω) : Growth ω :=
  let g := g.stack.foldl (announceEnd observer) { g with stack := [] }
  if g.tree.documentElement?.isSome then g
  else
    let (id, tree) := g.tree.create (.element (.ofTag "HTML"))
    match tree.append Tree.root id with
    | .ok tree => { g with tree }
    | .error e => { g with tree }.report index (.noRoot e)

end Growth

end Hypertext.Markup
