/-
Documents as trees over an arena. A node's number is its place in the order of
creation and never changes; the document is number 0. Nodes know their parent
and their children, a detached node has no parent, and no node ever leaves the
arena.

Walks along parents or children are bounded by the size of the arena, which no
path without repetition exceeds.
-/
import Hypertext.Tree.Classes

namespace Hypertext

/-- Whether an element of this name has neither content nor an end tag; letter case is no matter. -/
def isVoid (tag : String) : Bool :=
  tag.toUpper ∈ ["AREA", "BASE", "BR", "COL", "EMBED", "HR", "IMG", "INPUT", "LINK", "META", "PARAM",
    "SOURCE", "TRACK", "WBR"]

structure NodeId where
  index : Nat
  deriving DecidableEq, Repr

structure Element where
  /-- The tag in capitals. -/
  tag : String
  attributes : Attributes := {}
  deriving DecidableEq, Repr

def Element.ofTag (tag : String) : Element :=
  { tag := tag.toUpper }

inductive Content where
  | document
  | element (e : Element)
  | text (s : String)
  deriving DecidableEq, Repr

def Content.name : Content → String
  | .document => "#document"
  | .element e => e.tag
  | .text _ => "#text"

structure Node where
  content : Content
  parent : Option NodeId := none
  children : List NodeId := []
  deriving DecidableEq, Repr

structure Tree where
  nodes : Array Node
  deriving DecidableEq, Repr

namespace Tree

/-- The tree of the document alone. -/
def empty : Tree :=
  ⟨#[{ content := .document }]⟩

def root : NodeId := ⟨0⟩

def size (t : Tree) : Nat :=
  t.nodes.size

def node? (t : Tree) (id : NodeId) : Option Node :=
  t.nodes[id.index]?

def content? (t : Tree) (id : NodeId) : Option Content :=
  (t.node? id).map (·.content)

def element? (t : Tree) (id : NodeId) : Option Element :=
  match t.content? id with
  | some (.element e) => some e
  | _ => none

def text? (t : Tree) (id : NodeId) : Option String :=
  match t.content? id with
  | some (.text s) => some s
  | _ => none

def isElement (t : Tree) (id : NodeId) : Bool :=
  (t.element? id).isSome

def tag? (t : Tree) (id : NodeId) : Option String :=
  (t.element? id).map (·.tag)

def name? (t : Tree) (id : NodeId) : Option String :=
  (t.content? id).map (·.name)

def parent? (t : Tree) (id : NodeId) : Option NodeId :=
  (t.node? id).bind (·.parent)

def children (t : Tree) (id : NodeId) : List NodeId :=
  ((t.node? id).map (·.children)).getD []

def parentElement? (t : Tree) (id : NodeId) : Option NodeId :=
  (t.parent? id).filter t.isElement

def childElements (t : Tree) (id : NodeId) : List NodeId :=
  (t.children id).filter t.isElement

/-- The numbers of all nodes, attached or not. -/
def ids (t : Tree) : List NodeId :=
  (List.range t.size).map NodeId.mk

/-! ## Creating and changing single nodes -/

def create (t : Tree) (content : Content) : NodeId × Tree :=
  (⟨t.size⟩, ⟨t.nodes.push { content }⟩)

def modify (t : Tree) (id : NodeId) (f : Node → Node) : Tree :=
  ⟨t.nodes.modify id.index f⟩

def modifyAttributes (t : Tree) (id : NodeId) (f : Attributes → Attributes) : Tree :=
  t.modify id fun n =>
    match n.content with
    | .element e => { n with content := .element { e with attributes := f e.attributes } }
    | _ => n

/-- The text of a text node; other nodes have none to set. -/
def setText (t : Tree) (id : NodeId) (s : String) : Tree :=
  t.modify id fun n =>
    match n.content with
    | .text _ => { n with content := .text s }
    | _ => n

@[simp] theorem size_create (t : Tree) (content : Content) :
    (t.create content).2.size = t.size + 1 := by
  simp [create, size]

@[simp] theorem size_modify (t : Tree) (id : NodeId) (f : Node → Node) :
    (t.modify id f).size = t.size := by
  simp [modify, size]

/-- A new node is found under its number, and the others as before. -/
theorem node?_create (t : Tree) (content : Content) (id : NodeId) :
    (t.create content).2.node? id =
      if id = (t.create content).1 then some { content } else t.node? id := by
  obtain ⟨i⟩ := id
  simp [create, node?, size, Array.getElem?_push]

theorem node?_modify (t : Tree) (changed id : NodeId) (f : Node → Node) :
    (t.modify changed f).node? id =
      if changed = id then (t.node? id).map f else t.node? id := by
  obtain ⟨i⟩ := id
  obtain ⟨j⟩ := changed
  simp [modify, node?, Array.getElem?_modify]

/-! ## Walking up -/

/-- A node and its ancestors, at most `fuel` of them. -/
def chain (t : Tree) : Nat → Option NodeId → List NodeId
  | 0, _ => []
  | _, none => []
  | fuel + 1, some id => id :: t.chain fuel (t.parent? id)

/-- The ancestors of a node, its parent first. -/
def ancestors (t : Tree) (id : NodeId) : List NodeId :=
  t.chain t.size (t.parent? id)

def isDescendant (t : Tree) (descendant ancestor : NodeId) : Bool :=
  (t.ancestors descendant).contains ancestor

/-! ## Landmarks -/

/-- The first element under the document. -/
def documentElement? (t : Tree) : Option NodeId :=
  (t.children root).find? t.isElement

/-- The first child of the document element that has the given tag. -/
def section? (t : Tree) (tag : String) : Option NodeId :=
  t.documentElement?.bind fun html => (t.children html).find? fun id => t.tag? id = some tag

def head? (t : Tree) : Option NodeId :=
  t.section? "HEAD"

def body? (t : Tree) : Option NodeId :=
  t.section? "BODY"

/-! ## Walking down -/

/-- A node and all below it, each before its descendants and after its earlier siblings'. -/
def walkFrom (t : Tree) : Nat → NodeId → List NodeId
  | 0, _ => []
  | fuel + 1, id => id :: (t.children id).flatMap (t.walkFrom fuel)

def walk (t : Tree) (id : NodeId) : List NodeId :=
  t.walkFrom t.size id

/-- The elements under the document in document order. -/
def elements (t : Tree) : List NodeId :=
  (t.walk root).filter t.isElement

end Tree

end Hypertext
