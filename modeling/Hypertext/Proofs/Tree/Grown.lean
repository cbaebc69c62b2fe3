/-
Trees that have grown at one node: it has more children, and what was there
before is as it was. Growth inside one of the new nodes is growth at their
parent.
-/
import Hypertext.Proofs.Tree.Forest
import Hypertext.Proofs.Tree.Moves

namespace Hypertext.Tree

/-- The tree `t'` is `t` with more children, `ids`, at `p`, and whatever is below them. -/
structure Grown (t t' : Tree) (p : NodeId) (ids : List NodeId) : Prop where
  linked : t'.Linked
  size_le : t.size ≤ t'.size
  content : ∀ id, id.index < t.size → t'.content? id = t.content? id
  children : ∀ id, id.index < t.size → id ≠ p → t'.children id = t.children id
  added : t'.children p = t.children p ++ ids

variable {t t' t'' : Tree} {p id : NodeId} {ids ids' : List NodeId} {low : Nat} {f : Forest}

theorem Grown.refl (hl : t.Linked) (p : NodeId) : Grown t t p [] :=
  ⟨hl, Nat.le_refl _, fun _ _ => rfl, fun _ _ _ => rfl, (List.append_nil _).symm⟩

theorem Grown.trans (h : Grown t t' p ids) (h' : Grown t' t'' p ids') :
    Grown t t'' p (ids ++ ids') where
  linked := h'.linked
  size_le := Nat.le_trans h.size_le h'.size_le
  content id hid := (h'.content id (Nat.lt_of_lt_of_le hid h.size_le)).trans (h.content id hid)
  children id hid hne :=
    (h'.children id (Nat.lt_of_lt_of_le hid h.size_le) hne).trans (h.children id hid hne)
  added := by rw [h'.added, h.added, List.append_assoc]

/-- What grows at a node that is new grows at its parent. -/
theorem Grown.inside (h : Grown t t' p ids) (hp : p.index < t.size) (hid : t.size ≤ id.index)
    (h' : Grown t' t'' id ids') : Grown t t'' p ids where
  linked := h'.linked
  size_le := Nat.le_trans h.size_le h'.size_le
  content x hx := (h'.content x (Nat.lt_of_lt_of_le hx h.size_le)).trans (h.content x hx)
  children x hx hne := by
    have hxid : x ≠ id := by
      intro heq
      subst heq
      omega
    exact (h'.children x (Nat.lt_of_lt_of_le hx h.size_le) hxid).trans (h.children x hx hne)
  added := by
    have hpid : p ≠ id := by
      intro heq
      subst heq
      omega
    rw [h'.children p (Nat.lt_of_lt_of_le hp h.size_le) hpid, h.added]

/-- A forest of nodes newer than `p` is not touched by growth at `p`. -/
theorem Holds.grown (h : t.Holds low f ids) (hp : p.index < low) (hgrown : Grown t t' p ids') :
    t'.Holds low f ids := by
  refine h.transfer fun id c hid hc => ?_
  have hlt := lt_size_of_content? hc
  have hne : id ≠ p := by
    intro heq
    subst heq
    omega
  exact ⟨(hgrown.content id hlt).trans hc, hgrown.children id hlt hne⟩

/-- The elements right under the document. -/
def tops (t : Tree) : List Element :=
  (t.children root).filterMap t.element?

theorem documentElement?_eq_none : t.documentElement? = none ↔ t.tops = [] := by
  simp [documentElement?, tops, isElement]

theorem Grown.tops_eq (h : Grown t t' root ids) (hl : t.Linked) (hholds : t'.Holds low f ids) :
    t'.tops = t.tops ++ f.tops := by
  have hold : (t.children root).filterMap t'.element? = (t.children root).filterMap t.element? := by
    refine List.filterMap_congr fun id hid => ?_
    rw [element?, h.content id (hl.child_lt_size hid), element?]
  rw [tops, h.added, List.filterMap_append, hold, hholds.tops_eq, tops]

/-- A new node is attached. -/
theorem Linked.grown_attach (hl : t.Linked) (content : Content) {c : Content} (hcontent : content ≠ .document)
    (hc : t.content? p = some c) (htext : ∀ s, c ≠ .text s) :
    let t' := (t.create content).2.attach p ⟨t.size⟩
    Grown t t' p [⟨t.size⟩] ∧ t'.content? ⟨t.size⟩ = some content ∧ t'.children ⟨t.size⟩ = [] ∧
      t'.parent? ⟨t.size⟩ = some p ∧ t'.size = t.size + 1 := by
  intro t'
  have hp := lt_size_of_content? hc
  have hfits := fits_create hl hcontent hc htext
  have hchildren : ∀ x, t'.children x = if x = p then t.children x ++ [⟨t.size⟩] else t.children x := by
    intro x
    have hremoved : ((t.create content).2.remove ⟨t.size⟩).children x = t.children x := by
      rw [Tree.children_remove, parent?_create, parent?_size, if_neg (by simp), children_create]
    rw [children_attach hfits.parent_lt_size, hremoved]
  have hnew : (⟨t.size⟩ : NodeId) ≠ p := by
    intro heq
    subst heq
    exact Nat.lt_irrefl _ hp
  refine ⟨⟨(hl.create content).attach hfits, ?_, ?_, ?_, ?_⟩, ?_, ?_, ?_, ?_⟩
  · rw [size_attach, size_create]
    exact Nat.le_succ _
  · intro id hid
    rw [content?_attach, content?_create_of_lt _ hid]
  · intro id _ hne
    rw [hchildren, if_neg hne]
  · rw [hchildren, if_pos rfl]
  · rw [content?_attach, content?_create, if_pos rfl]
  · rw [hchildren, if_neg hnew, children_size]
  · rw [parent?_attach hfits.child_lt_size, if_pos rfl]
  · rw [size_attach, size_create]

end Hypertext.Tree
