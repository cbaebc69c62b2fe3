/-
What a program writes to its two streams. Warnings go to the second, each but
once until they are cleared: one that reads the same as an earlier one, with
the component's name in brackets before the message, is left out.
-/
import Hypertext.Markup.Growth

namespace Hypertext

open Markup

def bold (s : String) : String := "\x1b[1m" ++ s ++ "\x1b[0m"

def dimmed (s : String) : String := "\x1b[2m" ++ s ++ "\x1b[0m"

def yellow (s : String) : String := "\x1b[33m" ++ s ++ "\x1b[39m"

/-- What a warning is known by. -/
def warningKey (component message : String) : String :=
  "[" ++ component ++ "] " ++ message

def warningLine (component message : String) : String :=
  yellow ("[arbor " ++ component ++ "] warning: " ++ message) ++ "\n"

structure Console where
  out : String := ""
  err : String := ""
  /-- The keys of the warnings given since they were last cleared. -/
  warned : List String := []
  deriving DecidableEq, Repr

namespace Console

def print (c : Console) (s : String) : Console :=
  { c with out := c.out ++ s }

def warn (c : Console) (component message : String) : Console :=
  let key := warningKey component message
  if key ∈ c.warned then c
  else { c with err := c.err ++ warningLine component message, warned := key :: c.warned }

def forgetWarnings (c : Console) : Console :=
  { c with warned := [] }

/-- Warns of what was odd about a document. -/
def warnOf (c : Console) (oddity : Oddity) : Console :=
  c.warn "HTML Parser" oddity.message

/-- Warns of issues, one after the other. -/
def report (c : Console) (issues : List Issue) : Console :=
  issues.foldl (fun c i => c.warnOf i.oddity) c

end Console

end Hypertext
