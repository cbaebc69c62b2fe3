/-
Trees written as text: as markup, with or without the node's own tags; as the
bare text inside a node; and as an indented outline for people to read.
-/
import Hypertext.Tree.Basic

namespace Hypertext

/-- The quote around an attribute value: double, unless only single quotes keep the value whole. -/
def quoteFor (value : String) : Char :=
  if '"' ∈ value.toList ∧ '\'' ∉ value.toList then '\'' else '"'

def Attribute.written (a : Attribute) : String :=
  let quote := String.singleton (quoteFor a.value)
  " " ++ a.name ++ "=" ++ quote ++ a.value ++ quote

def Element.startTag (e : Element) : String :=
  "<" ++ e.tag.toLower ++ String.join (e.attributes.entries.map Attribute.written) ++ ">"

def Element.endTag (e : Element) : String :=
  "</" ++ e.tag.toLower ++ ">"

namespace Tree

/-- The markup of a node down to `fuel` levels. A void element is its start tag. -/
def write (t : Tree) : Nat → NodeId → String
  | 0, _ => ""
  | fuel + 1, id =>
    match t.node? id with
    | none => ""
    | some n =>
      let inside := String.join (n.children.map (t.write fuel))
      match n.content with
      | .document => inside
      | .text s => s
      | .element e => if isVoid e.tag then e.startTag else e.startTag ++ inside ++ e.endTag

/-- The markup of a node with its own tags. -/
def outer (t : Tree) (id : NodeId) : String :=
  t.write t.size id

/-- The markup of a node's children. -/
def inner (t : Tree) (id : NodeId) : String :=
  String.join ((t.children id).map t.outer)

def textFrom (t : Tree) : Nat → NodeId → String
  | 0, _ => ""
  | fuel + 1, id =>
    match t.text? id with
    | some s => s
    | none => String.join ((t.children id).map (t.textFrom fuel))

/-- The texts in and below a node, joined. -/
def textContent (t : Tree) (id : NodeId) : String :=
  t.textFrom t.size id

/-! ## Outlines -/

/-- A text on one line, with its spaces in sight. -/
def visible (s : String) : String :=
  String.join (s.toList.map fun c =>
    if c = '\n' then "\\n" else if c = ' ' then "·" else String.singleton c)

def outlineLabel : Content → String
  | .document => "#document"
  | .text s => "\"" ++ visible s ++ "\""
  | .element e =>
    "<" ++ e.tag.toLower ++ String.join (e.attributes.entries.map fun a =>
      if a.value = "" then " " ++ a.name else " " ++ a.name ++ "=\"" ++ a.value ++ "\"") ++ ">"

def outlineFrom (t : Tree) : Nat → Nat → NodeId → String
  | 0, _, _ => ""
  | fuel + 1, depth, id =>
    match t.node? id with
    | none => ""
    | some n =>
      String.ofList (List.replicate (2 * depth) ' ') ++ outlineLabel n.content ++ "\n" ++
        String.join (n.children.map (t.outlineFrom fuel (depth + 1)))

/-- The nodes in and below a node, one a line, two spaces deeper at each level. -/
def outline (t : Tree) (id : NodeId) : String :=
  t.outlineFrom t.size 0 id

end Tree

end Hypertext
