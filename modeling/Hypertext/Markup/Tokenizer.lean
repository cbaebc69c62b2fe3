/-
The automaton that cuts a document into tokens, character by character.

Text collects until a tag is certain: the characters of what may become a tag
are held, and go back into the text where it does not. Tags and attributes
collect in buffers of their own, which are all empty again when a tag ends.
Inside `script` and `style` only the element's own end tag is looked for.
-/
import Hypertext.Text.Ascii
import Hypertext.Automaton.Basic
import Hypertext.Tree.Basic
import Hypertext.Markup.Token

namespace Hypertext.Markup

open Automaton

/-- Where in the markup the next character stands. -/
inductive Mode where
  | text
  | tagOpen
  | startTag
  | endTag
  | betweenAttributes
  | attributeName
  | afterName
  | beforeValue
  | value
  | rawText (e : RawText)
  /-- In the end tag of a raw text element, with the `<` and `matched` more characters read. -/
  | rawEnd (e : RawText) (matched : Nat)
  deriving DecidableEq, Repr

def Mode.show : Mode → String
  | .text => "Text"
  | .tagOpen => "TagStartOrEnd"
  | .startTag => "TagStart"
  | .endTag => "TagEnd"
  | .betweenAttributes => "AttrIdle"
  | .attributeName => "AttrName"
  | .afterName => "AttrIdleOrName"
  | .beforeValue => "AttrEqual"
  | .value => "AttrValue"
  | .rawText e => "RawText(" ++ e.title ++ ")"
  | .rawEnd e matched => "RawTextEnd(" ++ e.title ++ ", " ++ toString matched ++ ")"

structure Buffers where
  text : String := ""
  /-- The characters of a tag that is not certain yet. -/
  held : String := ""
  tag : String := ""
  endTag : String := ""
  attributes : List Attribute := []
  name : String := ""
  value : String := ""
  quote : Option Char := none
  deriving DecidableEq, Repr

abbrev Outcome := Effect Mode Buffers Token

abbrev Action := Char → Buffers → Outcome

namespace Buffers

/-! ## Actions -/

def addText : Action := fun c b => { data := { b with text := b.text.push c } }

def hold : Action := fun c b => { data := { b with held := b.held.push c } }

def addTag : Action := fun c b => { data := { b with tag := b.tag.push c } }

def addEndTag : Action := fun c b =>
  { data := { b with held := b.held.push c, endTag := b.endTag.push c } }

def addName : Action := fun c b => { data := { b with name := b.name.push c } }

def addValue : Action := fun c b => { data := { b with value := b.value.push c } }

def beginQuoted : Action := fun c b => { data := { b with quote := some c, value := "" } }

def beginBare : Action := fun c b => { data := { b with quote := none, value := String.singleton c } }

/-- No tag after all: what was held becomes text, and the character with it, unless it is itself a
`<`, which may begin what the last one did not. -/
def release (retry : Mode) : Action := fun c b =>
  let b := { b with text := b.text ++ b.held, held := "", endTag := "" }
  if c = '<' then { data := { b with held := "<" }, target := some retry }
  else { data := { b with text := b.text.push c } }

def textTokens (s : String) : List Token :=
  if s = "" then [] else [.text s]

/-- The first character of a start tag's name ends the text before it. -/
def openTag : Action := fun c b =>
  { data := { b with text := "", held := "", tag := b.tag.push c }, events := textTokens b.text }

/-- The buffers with the attribute under way, if it has a name, put to the others. -/
def endAttribute (b : Buffers) : Buffers :=
  { b with
    attributes := if b.name = "" then b.attributes else b.attributes ++ [⟨b.name, b.value⟩]
    name := "", value := "", quote := none }

/-- A start tag, complete. A void element ends at once; a raw text element changes the mode. -/
def finishStartTag (b : Buffers) : Outcome :=
  let tag := b.tag.toUpper
  { data := {}
    target := (RawText.ofTag? b.tag).map Mode.rawText
    events := .startTag tag b.attributes :: if isVoid tag then [.endTag tag] else [] }

/-- An end tag, complete. One without a name is no token, but ends the text before it too. -/
def finishEndTag (b : Buffers) : Outcome :=
  { data := {}
    events := textTokens b.text ++ if b.endTag = "" then [] else [.endTag b.endTag.toUpper] }

def finishRawText (e : RawText) (b : Buffers) : Outcome :=
  { data := {}, events := textTokens b.text ++ [.endTag e.name.toUpper] }

/-- The end of the input: what is held is text. A start tag under way is lost. -/
def flush (b : Buffers) : Outcome :=
  { data := {}, events := textTokens (b.text ++ b.held) }

end Buffers

/-! ## The table -/

open Buffers

abbrev ModeRules := Rules Char Mode Buffers Token

def isNameChar (c : Char) : Bool :=
  c.isAlphanum || c == '-' || c == '_' || c == ':' || c == '.'

/-- The characters after the `<` of a raw text element's end tag. -/
def RawText.closing (e : RawText) : List Char :=
  '/' :: e.name.toList ++ ['>']

def textRules : ModeRules where
  rows := [(.is '<', ⟨.tagOpen, hold⟩)]
  otherwise := some ⟨.text, addText⟩

def tagOpenRules : ModeRules where
  rows := [
    (.is '/', ⟨.endTag, hold⟩),
    (.matching Char.isAlphanum, ⟨.startTag, openTag⟩)]
  otherwise := some ⟨.text, release .tagOpen⟩

def startTagRules : ModeRules where
  rows := [
    (.matching Char.isAlphanum, ⟨.startTag, addTag⟩),
    (.matching isBlank, { target := .betweenAttributes }),
    (.is '/', { target := .betweenAttributes }),
    (.is '>', ⟨.text, fun _ b => finishStartTag b⟩)]

def endTagRules : ModeRules where
  rows := [
    (.matching Char.isAlphanum, ⟨.endTag, addEndTag⟩),
    (.is '>', ⟨.text, fun _ b => finishEndTag b⟩)]
  otherwise := some ⟨.text, release .tagOpen⟩

def betweenAttributesRules : ModeRules where
  rows := [
    (.matching Char.isAlphanum, ⟨.attributeName, addName⟩),
    (.matching isBlank, { target := .betweenAttributes }),
    (.is '/', { target := .betweenAttributes }),
    (.is '>', ⟨.text, fun _ b => finishStartTag b⟩)]

def attributeNameRules : ModeRules where
  rows := [
    (.matching isNameChar, ⟨.attributeName, addName⟩),
    (.matching isBlank, { target := .afterName }),
    (.is '=', { target := .beforeValue }),
    (.is '/', ⟨.betweenAttributes, fun _ b => { data := b.endAttribute }⟩),
    (.is '>', ⟨.text, fun _ b => finishStartTag b.endAttribute⟩)]

def afterNameRules : ModeRules where
  rows := [
    (.matching Char.isAlphanum, ⟨.attributeName, fun c b => addName c b.endAttribute⟩),
    (.matching isBlank, { target := .afterName }),
    (.is '=', { target := .beforeValue }),
    (.is '/', ⟨.betweenAttributes, fun _ b => { data := b.endAttribute }⟩),
    (.is '>', ⟨.text, fun _ b => finishStartTag b.endAttribute⟩)]

def beforeValueRules : ModeRules where
  rows := [
    (.matching isBlank, { target := .beforeValue }),
    (.any ['"', '\''], ⟨.value, beginQuoted⟩),
    (.is '>', ⟨.text, fun _ b => finishStartTag b.endAttribute⟩)]
  otherwise := some ⟨.value, beginBare⟩

def endValue (b : Buffers) : Outcome :=
  { data := b.endAttribute, target := some .betweenAttributes }

def valueRules : ModeRules where
  rows := [
    (.matching isBlank, ⟨.value, fun c b => if b.quote.isSome then addValue c b else endValue b⟩),
    (.is '>', ⟨.text, fun c b =>
      if b.quote.isSome then { addValue c b with target := some .value }
      else finishStartTag b.endAttribute⟩)]
  otherwise := some ⟨.value, fun c b => if b.quote = some c then endValue b else addValue c b⟩

def rawTextRules (e : RawText) : ModeRules where
  rows := [(.is '<', ⟨.rawEnd e 0, hold⟩)]
  otherwise := some ⟨.rawText e, addText⟩

/-- In the end tag of a raw text element one character is expected, in either case; any other shows
that this is text. -/
def rawEndRules (e : RawText) (matched : Nat) : Option ModeRules :=
  e.closing[matched]?.map fun expected =>
    { rows := [(.any [expected, expected.toUpper],
        if expected = '>' then ⟨.text, fun _ b => finishRawText e b⟩
        else ⟨.rawEnd e (matched + 1), hold⟩)]
      otherwise := some ⟨.rawText e, release (.rawEnd e 0)⟩ }

def Mode.rules : Mode → Option ModeRules
  | .text => some textRules
  | .tagOpen => some tagOpenRules
  | .startTag => some startTagRules
  | .endTag => some endTagRules
  | .betweenAttributes => some betweenAttributesRules
  | .attributeName => some attributeNameRules
  | .afterName => some afterNameRules
  | .beforeValue => some beforeValueRules
  | .value => some valueRules
  | .rawText e => some (rawTextRules e)
  | .rawEnd e matched => rawEndRules e matched

def tokenizer : Machine Char Mode Buffers Token where
  initial := .text
  initialData := {}
  rules := Mode.rules
  finished := flush

end Hypertext.Markup
