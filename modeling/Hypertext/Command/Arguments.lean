/-
The command line: a subcommand, its options and its operands. An option's
value is attached to it by `=`, or is the argument after it, which then must
not look like an option. After `--` all arguments are operands.
-/
import Hypertext.Selector.Reading

namespace Hypertext

namespace Command

/-- Where the document comes from. -/
inductive Source where
  | html (text : String)
  | file (path : String)
  | missing
  deriving DecidableEq, Repr

end Command

inductive Command where
  | tree (source : Command.Source)
  | render (config : Option String) (source : Command.Source)
  | select (selector : Selector) (source : Command.Source)
  deriving DecidableEq, Repr

namespace Command

inductive OptionName where
  | html
  | pipeline
  deriving DecidableEq, Repr

inductive Argument where
  /-- An option, with its value if that is attached. -/
  | option (name : OptionName) (value : Option String)
  | operand (value : String)
  | unknown
  deriving DecidableEq, Repr

/-- What follows `start` in `s`, should `s` start so. -/
def after? (start s : String) : Option String :=
  if start.toList.isPrefixOf s.toList then some (.ofList (s.toList.drop start.length)) else none

def looksLikeOption (s : String) : Bool :=
  s.toList.head? = some '-' && s != "-"

def htmlArgument? (s : String) : Option Argument :=
  if s = "--html" then some (.option .html none)
  else (after? "--html=" s).map fun value => .option .html (some value)

def pipelineArgument? (s : String) : Option Argument :=
  if s = "--pipeline" ∨ s = "-p" then some (.option .pipeline none)
  else
    ((after? "--pipeline=" s).or ((after? "-p=" s).or (after? "-p" s))).map fun value =>
      .option .pipeline (some value)

/-- An argument of a subcommand that takes the options it is given readers for. -/
def argument (options : List (String → Option Argument)) (s : String) : Argument :=
  match options.findSome? (· s) with
  | some a => a
  | none => if looksLikeOption s then .unknown else .operand s

structure Given where
  html : Option String := none
  pipeline : Option String := none
  operands : List String := []
  deriving DecidableEq, Repr

/-- Takes an option's value. No option can be given twice. -/
def Given.set? (g : Given) (name : OptionName) (value : String) : Option Given :=
  match name with
  | .html => if g.html.isSome then none else some { g with html := some value }
  | .pipeline => if g.pipeline.isSome then none else some { g with pipeline := some value }

def Given.read? (options : List (String → Option Argument)) : List String → Given → Option Given
  | [], g => some g
  | s :: rest, g =>
    if s = "--" then some { g with operands := g.operands ++ rest }
    else
      match argument options s with
      | .unknown => none
      | .operand value => read? options rest { g with operands := g.operands ++ [value] }
      | .option name (some value) => (g.set? name value).bind (read? options rest)
      | .option name none =>
        match rest with
        | [] => none
        | value :: rest =>
          if looksLikeOption value then none else (g.set? name value).bind (read? options rest)

/-- The document's source, from the operands that are left for it. A path cannot be empty. -/
def Given.source? (g : Given) (operands : List String) : Option Source :=
  match operands, g.html with
  | [], none => some .missing
  | [], some text => some (.html text)
  | [path], none => if path = "" then none else some (.file path)
  | _, _ => none

def tree? (g : Given) : Option Command :=
  (g.source? g.operands).map .tree

def render? (g : Given) : Option Command :=
  if g.pipeline = some "" then none else (g.source? g.operands).map (.render g.pipeline)

def select? (g : Given) : Option Command :=
  match g.operands with
  | [] => none
  | selector :: operands =>
    match Selector.parse selector with
    | .error _ => none
    | .ok selector => (g.source? operands).map (.select selector)

inductive Request where
  | version
  | run (command : Command)
  deriving DecidableEq, Repr

/-- What the arguments ask for. There is no answer where they are no use of the program. -/
def Request.read? : List String → Option Request
  | [] => none
  | name :: rest =>
    if name = "tree" then ((Given.read? [htmlArgument?] rest {}).bind tree?).map .run
    else if name = "render" then
      ((Given.read? [htmlArgument?, pipelineArgument?] rest {}).bind render?).map .run
    else if name = "match" then ((Given.read? [htmlArgument?] rest {}).bind select?).map .run
    else if name = "--version" ∨ (after? "-V" name).isSome then some .version
    else none

end Command

end Hypertext
