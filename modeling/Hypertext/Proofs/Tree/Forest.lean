/-
What stands below a node, as data: a forest, in the form of first child and
next sibling. A linked tree has one below each node (`Linked.exists_forest`),
its markup is that of the forest (`join_outer`), and two trees with the same
forest are alike, node for node, whatever the numbers of the nodes.
-/
import Hypertext.Proofs.Tree.Linked

namespace Hypertext

/-- Texts and elements from left to right, each element with what stands inside it. -/
inductive Forest where
  | nil
  | text (s : String) (rest : Forest)
  | element (e : Element) (inside rest : Forest)
  deriving DecidableEq, Repr

/-- The markup of a forest. -/
def Forest.written : Forest → String
  | .nil => ""
  | .text s rest => s ++ rest.written
  | .element e inside rest =>
    (if isVoid e.tag then e.startTag else e.startTag ++ inside.written ++ e.endTag) ++ rest.written

/-- The elements of a forest that are in no other. -/
def Forest.tops : Forest → List Element
  | .nil => []
  | .text _ rest => rest.tops
  | .element e _ rest => e :: rest.tops

/-- One forest to the left of another. -/
def Forest.append : Forest → Forest → Forest
  | .nil, g => g
  | .text s rest, g => .text s (rest.append g)
  | .element e inside rest, g => .element e inside (rest.append g)

theorem Forest.tops_append (f g : Forest) : (f.append g).tops = f.tops ++ g.tops := by
  induction f with
  | nil => rfl
  | text s rest ih => rw [Forest.append, Forest.tops, ih, Forest.tops]
  | element e inside rest _ ih =>
    rw [Forest.append, Forest.tops, ih, Forest.tops, List.cons_append]

/-- A text to the left of a forest, as part of the text that the forest begins with if it does. -/
def Forest.prepend (s : String) : Forest → Forest
  | .text s' rest => .text (s ++ s') rest
  | f => .text s f

/-- The forest with adjacent texts made one. -/
def Forest.joined : Forest → Forest
  | .nil => .nil
  | .text s rest => rest.joined.prepend s
  | .element e inside rest => .element e inside.joined rest.joined

theorem Forest.written_prepend (s : String) (f : Forest) : (f.prepend s).written = s ++ f.written := by
  cases f with
  | text s' rest => rw [prepend, written, written, String.append_assoc]
  | _ => rfl

theorem Forest.tops_prepend (s : String) (f : Forest) : (f.prepend s).tops = f.tops := by
  cases f <;> rfl

/-- Markup does not tell adjacent texts from one. -/
theorem Forest.written_joined (f : Forest) : f.joined.written = f.written := by
  induction f with
  | nil => rfl
  | text s rest ih => rw [joined, written_prepend, ih, written]
  | element e inside rest ihinside ihrest => rw [joined, written, ihinside, ihrest, written]

theorem Forest.tops_joined (f : Forest) : f.joined.tops = f.tops := by
  induction f with
  | nil => rfl
  | text s rest ih => rw [joined, tops_prepend, ih, tops]
  | element e inside rest _ ihrest => rw [joined, tops, ihrest, tops]

namespace Tree

/-- The nodes, with all below them, are the forest, and have numbers from `low` on. -/
inductive Holds (t : Tree) (low : Nat) : Forest → List NodeId → Prop where
  | nil : Holds t low .nil []
  | text {s rest id ids} : low ≤ id.index → t.content? id = some (.text s) → t.children id = [] →
    Holds t low rest ids → Holds t low (.text s rest) (id :: ids)
  | element {e inside rest id ids} : low ≤ id.index → t.content? id = some (.element e) →
    Holds t low inside (t.children id) → Holds t low rest ids →
    Holds t low (.element e inside rest) (id :: ids)

/-- The two nodes have the same contents, and children that are alike one by one. -/
inductive Alike (t t' : Tree) : NodeId → NodeId → Prop where
  | intro {id id' c} : t.content? id = some c → t'.content? id' = some c →
    List.Forall₂ (Alike t t') (t.children id) (t'.children id') → Alike t t' id id'

variable {t t' : Tree} {low low' : Nat} {f : Forest} {ids ids' : List NodeId}

theorem Holds.mono (h : t.Holds low f ids) (hlow : low' ≤ low) : t.Holds low' f ids := by
  induction h with
  | nil => exact .nil
  | text hid hc hleaf _ ih => exact .text (Nat.le_trans hlow hid) hc hleaf ih
  | element hid hc _ _ ihinside ihrest =>
    exact .element (Nat.le_trans hlow hid) hc ihinside ihrest

theorem Holds.append {f' : Forest} (h : t.Holds low f ids) (h' : t.Holds low f' ids') :
    t.Holds low (f.append f') (ids ++ ids') := by
  induction h with
  | nil => exact h'
  | text hid hc hleaf _ ih => exact .text hid hc hleaf ih
  | element hid hc hinside _ _ ih => exact .element hid hc hinside ih

/-- What a change leaves alone from a number on is still there. -/
theorem Holds.transfer (h : t.Holds low f ids)
    (hkept : ∀ id c, low ≤ id.index → t.content? id = some c →
      t'.content? id = some c ∧ t'.children id = t.children id) : t'.Holds low f ids := by
  induction h with
  | nil => exact .nil
  | text hid hc hleaf _ ih =>
    obtain ⟨hc', hchildren⟩ := hkept _ _ hid hc
    exact .text hid hc' (by rw [hchildren, hleaf]) ih
  | element hid hc _ _ ihinside ihrest =>
    obtain ⟨hc', hchildren⟩ := hkept _ _ hid hc
    exact .element hid hc' (by rw [hchildren]; exact ihinside) ihrest

theorem Holds.alike (h : t.Holds low f ids) (h' : t'.Holds low' f ids') :
    List.Forall₂ (Alike t t') ids ids' := by
  induction h generalizing ids' with
  | nil => cases h'; exact .nil
  | text _ hc hleaf _ ih =>
    cases h' with
    | text _ hc' hleaf' hrest' =>
      exact .cons (.intro hc hc' (by rw [hleaf, hleaf']; exact .nil)) (ih hrest')
  | element _ hc _ _ ihinside ihrest =>
    cases h' with
    | element _ hc' hinside' hrest' => exact .cons (.intro hc hc' (ihinside hinside')) (ihrest hrest')

/-- The elements among the nodes are those at the top of the forest. -/
theorem Holds.tops_eq (h : t.Holds low f ids) : ids.filterMap t.element? = f.tops := by
  induction h with
  | nil => rfl
  | text _ hc _ _ ih =>
    rw [List.filterMap_cons_none (by simp only [element?, hc]), ih, Forest.tops]
  | element _ hc _ _ _ ih =>
    rw [List.filterMap_cons_some (element?_eq_some.mpr hc), ih, Forest.tops]

theorem Linked.outer_of_text (hl : t.Linked) {id : NodeId} {s : String}
    (hc : t.content? id = some (.text s)) : t.outer id = s := by
  simp only [content?, Option.map_eq_some_iff] at hc
  obtain ⟨n, hn, hc⟩ := hc
  simp only [hl.outer_eq, hn, hc]

theorem Linked.outer_of_element (hl : t.Linked) {id : NodeId} {e : Element}
    (hc : t.content? id = some (.element e)) :
    t.outer id = if isVoid e.tag then e.startTag
      else e.startTag ++ String.join ((t.children id).map t.outer) ++ e.endTag := by
  simp only [content?, Option.map_eq_some_iff] at hc
  obtain ⟨n, hn, hc⟩ := hc
  simp only [hl.outer_eq, hn, hc, children_of_node? hn]

theorem Linked.outer_of_document (hl : t.Linked) {id : NodeId}
    (hc : t.content? id = some .document) :
    t.outer id = String.join ((t.children id).map t.outer) := by
  simp only [content?, Option.map_eq_some_iff] at hc
  obtain ⟨n, hn, hc⟩ := hc
  simp only [hl.outer_eq, hn, hc, children_of_node? hn]

theorem Holds.join_outer (h : t.Holds low f ids) (hl : t.Linked) :
    String.join (ids.map t.outer) = f.written := by
  induction h with
  | nil => rfl
  | text _ hc _ _ ih =>
    rw [List.map_cons, String.join_cons, hl.outer_of_text hc, ih, Forest.written]
  | element _ hc _ _ ihinside ihrest =>
    rw [List.map_cons, String.join_cons, hl.outer_of_element hc, ihinside, ihrest, Forest.written]

/-- There is a forest below each node. -/
theorem Linked.exists_forest (hl : t.Linked) (a : NodeId) : ∃ f, t.Holds 0 f (t.children a) := by
  induction a using hl.wellFounded_below.induction with
  | _ a ih =>
    have hlist : ∀ ids : List NodeId, (∀ id ∈ ids, t.parent? id = some a) → ∃ f, t.Holds 0 f ids := by
      intro ids hparent
      induction ids with
      | nil => exact ⟨.nil, .nil⟩
      | cons id ids ihids =>
        obtain ⟨rest, hrest⟩ := ihids fun x hx => hparent x (.tail _ hx)
        have hid := hparent id List.mem_cons_self
        obtain ⟨c, hc⟩ := exists_content? (lt_size_of_parent? hid)
        cases c with
        | document => cases (hl.document_top id hc).symm.trans hid
        | text s =>
          exact ⟨_, .text (Nat.zero_le _) hc (hl.text_leaf id s (text?_eq_some.mpr hc)) hrest⟩
        | element e =>
          obtain ⟨inside, hinside⟩ := ih id (.single hid)
          exact ⟨_, .element (Nat.zero_le _) hc hinside hrest⟩
    exact hlist _ fun id hid => (hl.mem_children a id).mp hid

end Tree

end Hypertext
