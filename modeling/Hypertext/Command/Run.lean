/-
What each command writes. A failure is a report: what could not be done, and
what caused it, the deepest cause last.
-/
import Hypertext.Console
import Hypertext.Pipeline.Configuration
import Hypertext.Command.Arguments

namespace Hypertext.Command

open Markup

/-- The files a command may read: the text at a path, or the system's words for why there is none. -/
abbrev Files := String → Except String String

/-- What could not be done, then its causes. -/
structure Report where
  summary : String
  causes : List String := []
  deriving DecidableEq, Repr

def Report.text (r : Report) : String :=
  "Error: " ++ r.summary ++ "\n" ++
    match r.causes with
    | [] => ""
    | [cause] => "\nCaused by:\n    " ++ cause ++ "\n"
    | causes =>
      "\nCaused by:\n" ++ String.join (causes.mapIdx fun i cause =>
        "    " ++ toString i ++ ": " ++ cause ++ "\n")

def failureCauses (f : Failure) : List String :=
  [f.message, faultMessage f.fault]

def errorCauses : Pipeline.Error → List String
  | .parse f => failureCauses f
  | e => [e.message]

def readFile (files : Files) (path : String) : Except Report String :=
  (files path).mapError fun reason => ⟨"failed to read '" ++ path ++ "'", [reason]⟩

def Source.read (files : Files) : Source → Except Report String
  | .html text => .ok text
  | .file path => readFile files path
  | .missing => .error ⟨"expected a FILE or --html", []⟩

def issueLines (issues : List Issue) : String :=
  if issues = [] then ""
  else "\n" ++ bold "=== Parse Issues ===" ++ "\n" ++ String.join (issues.map fun i =>
    "  - " ++ dimmed ("[" ++ toString i.index ++ "]") ++ " " ++ i.message ++ "\n")

/-- The elements of a document that match, in document order, or the first error on the way. -/
def matched (t : Tree) (s : Selector) : Except Selector.Unsupported (List NodeId) :=
  t.elements.filterM (s.matches t)

def matchLines (t : Tree) (s : Selector) (found : List NodeId) : String :=
  bold ("=== " ++ toString found.length ++ " match(es) for " ++ s.source ++ " ===") ++ "\n" ++
    String.join (found.map fun id => t.outer id ++ "\n")

abbrev Outcome := Console × Option Report

def runTree (input : String) : Outcome :=
  match ({} : Console).parse {} input with
  | (.error f, _, console) => (console, some ⟨"failed to parse input", failureCauses f⟩)
  | (.ok t, p, console) =>
    (console.print (bold "=== DOM Tree ===" ++ "\n" ++ t.outline Tree.root ++ issueLines p.issues),
      none)

/-- The pipeline a configuration file describes; without a file, one that does nothing. -/
def pipelineOf (files : Files) : Option String → Except Report (Pipeline Pipeline.Focus Unit)
  | none => .ok {}
  | some path =>
    match readFile files path with
    | .error r => .error r
    | .ok text =>
      (Pipeline.read text).mapError fun e => ⟨"invalid pipeline '" ++ path ++ "'", errorCauses e⟩

def runRender (files : Files) (config : Option String) (input : String) : Outcome :=
  match pipelineOf files config with
  | .error r => ({}, some r)
  | .ok pipeline =>
    match ({} : Console).process pipeline () input with
    | (.error e, _, _, console) => (console, some ⟨"pipeline failed", errorCauses e⟩)
    | (.ok html, _, _, console) => (console.print (html ++ "\n"), none)

def runSelect (s : Selector) (input : String) : Outcome :=
  match ({} : Console).parse {} input with
  | (.error f, _, console) => (console, some ⟨"failed to parse input", failureCauses f⟩)
  | (.ok t, _, console) =>
    match matched t s with
    | .error u => (console, some ⟨u.message, []⟩)
    | .ok found => (console.print (matchLines t s found), none)

def source : Command → Source
  | .tree source | .render _ source | .select _ source => source

/-- Runs a command. Its document is read before anything else. -/
def run (files : Files) (command : Command) : Outcome :=
  match command.source.read files with
  | .error r => ({}, some r)
  | .ok input =>
    match command with
    | .tree _ => runTree input
    | .render config _ => runRender files config input
    | .select selector _ => runSelect selector input

/-- The paths a command may read. -/
def paths (command : Command) : List String :=
  (match command.source with
    | .file path => [path]
    | _ => []) ++
  match command with
    | .render (some config) _ => [config]
    | _ => []

def Request.paths : Request → List String
  | .version => []
  | .run command => command.paths

/-- What a program leaves when it ends. -/
structure Exit where
  code : Nat
  out : String := ""
  err : String := ""
  deriving DecidableEq, Repr

def exit : Outcome → Exit
  | (console, none) => { code := 0, out := console.out, err := console.err }
  | (console, some r) => { code := 1, out := console.out, err := console.err ++ r.text }

def Request.exit (files : Files) : Request → Exit
  | .version => { code := 0, out := "arbor 0.1.0\n" }
  | .run command => Command.exit (command.run files)

end Hypertext.Command
