/-
Tokens, the events between the characters of a document and its tree: a text,
a start tag with its attributes in source order, an end tag. Tags are in
capitals.
-/
import Hypertext.Tree.Attributes

namespace Hypertext.Markup

inductive Token where
  | text (s : String)
  | startTag (tag : String) (attributes : List Attribute)
  | endTag (tag : String)
  deriving DecidableEq, Repr

/-- What can happen to a node while its document is read. -/
inductive EventKind where
  | textCreated
  | elementStarted
  | elementEnded
  deriving DecidableEq, Repr

def EventKind.name : EventKind → String
  | .textCreated => "textCreated"
  | .elementStarted => "elementStarted"
  | .elementEnded => "elementEnded"

def EventKind.ofName? : String → Option EventKind
  | "textCreated" => some .textCreated
  | "elementStarted" => some .elementStarted
  | "elementEnded" => some .elementEnded
  | _ => none

def Token.kind : Token → EventKind
  | .text _ => .textCreated
  | .startTag _ _ => .elementStarted
  | .endTag _ => .elementEnded

/-- The elements whose content is text up to their own end tag. -/
inductive RawText where
  | script
  | style
  deriving DecidableEq, Repr

def RawText.name : RawText → String
  | .script => "script"
  | .style => "style"

/-- The name as a constructor is spelled. -/
def RawText.title : RawText → String
  | .script => "Script"
  | .style => "Style"

def RawText.ofTag? (tag : String) : Option RawText :=
  if tag.toLower = "script" then some .script
  else if tag.toLower = "style" then some .style
  else none

end Hypertext.Markup
