/-
Pipelines: processors that change a document while it is read. Each event
goes to the processors in order. The first failure is the document's; after it
no processor is asked anything until the next document, before which all are
reset.

A processor has a state of its own (`σ`) and may write to a memory that all
share (`ω`).
-/
import Hypertext.Tree.Writing
import Hypertext.Markup.Parser
import Hypertext.Selector.Matching

namespace Hypertext

namespace Pipeline

open Markup

/-- The processors a configuration can name. -/
inductive Kind where
  | attribute
  | element
  deriving DecidableEq, Repr

def Kind.name : Kind → String
  | .attribute => "attribute"
  | .element => "element"

def Kind.ofName? : String → Option Kind
  | "attribute" => some .attribute
  | "element" => some .element
  | _ => none

inductive Error where
  | unknownProcessor (name : String)
  | invalidParams (kind : Kind)
  | config
  | parse (failure : Failure)
  | selector (reason : Selector.Unsupported)
  deriving DecidableEq

def Error.message : Error → String
  | .unknownProcessor name => "unknown processor " ++ Literal.ofString name
  | .invalidParams kind => "invalid parameters for the " ++ kind.name ++ " processor"
  | .config => "invalid pipeline configuration"
  | .parse failure => failure.message
  | .selector reason => reason.message

/-- What a processor acts on. -/
structure Scene (σ ω : Type) where
  tree : Tree
  state : σ
  memory : ω

structure Processor (σ ω : Type) where
  reset : σ × ω → σ × ω := id
  /-- The answer is what went wrong, if anything did. What was done before stays done. -/
  react : Event → Scene σ ω → Scene σ ω × Option Error := fun _ scene => (scene, none)

structure Stage (σ ω : Type) where
  processor : Processor σ ω
  state : σ

variable {σ ω : Type}

def resetAll : List (Stage σ ω) → ω → List (Stage σ ω) × ω
  | [], memory => ([], memory)
  | s :: rest, memory =>
    let (state, memory) := s.processor.reset (s.state, memory)
    let (rest, memory) := resetAll rest memory
    ({ s with state } :: rest, memory)

/-- The stages of a document under way, and its failure once there is one. -/
structure Run (σ ω : Type) where
  stages : List (Stage σ ω)
  memory : ω
  failure : Option Error := none

/-- One event through the stages in order, up to the first that fails. -/
def relay (event : Event) : List (Stage σ ω) → Tree → ω → Tree × Run σ ω
  | [], tree, memory => (tree, { stages := [], memory })
  | s :: rest, tree, memory =>
    let (scene, failure) := s.processor.react event ⟨tree, s.state, memory⟩
    let s := { s with state := scene.state }
    match failure with
    | some _ => (scene.tree, { stages := s :: rest, memory := scene.memory, failure })
    | none =>
      let (tree, run) := relay event rest scene.tree scene.memory
      (tree, { run with stages := s :: run.stages })

def observer : Observer (Run σ ω) := fun event (tree, run) =>
  match run.failure with
  | some _ => (tree, run)
  | none => relay event run.stages tree run.memory

end Pipeline

/-- Processors in the order in which they see each event, and the parser that feeds them. -/
structure Pipeline (σ ω : Type) where
  stages : List (Pipeline.Stage σ ω) := []
  parser : Markup.Parser := {}

namespace Pipeline

variable {σ ω : Type}

def pipe (p : Pipeline σ ω) (processor : Processor σ ω) (state : σ) : Pipeline σ ω :=
  { p with stages := p.stages ++ [⟨processor, state⟩] }

def issues (p : Pipeline σ ω) : List Markup.Issue :=
  p.parser.issues

/-- The tree of a document as the processors leave it. -/
def treeOf (p : Pipeline σ ω) (memory : ω) (input : String) :
    Except Error Tree × ω × Pipeline σ ω :=
  let (stages, memory) := resetAll p.stages memory
  let (result, run, parser) := p.parser.parseWith observer { stages, memory } input
  let outcome :=
    match run.failure, result with
    | some e, _ => .error e
    | none, .error failure => .error (.parse failure)
    | none, .ok tree => .ok tree
  (outcome, run.memory, { stages := run.stages, parser })

/-- The markup of a tree's document element. -/
def rendered (t : Tree) : String :=
  (t.documentElement?.map t.outer).getD ""

/-- The markup of a document as the processors leave it. -/
def process (p : Pipeline σ ω) (memory : ω) (input : String) :
    Except Error String × ω × Pipeline σ ω :=
  let (outcome, memory, p) := p.treeOf memory input
  (outcome.map rendered, memory, p)

end Pipeline

end Hypertext
