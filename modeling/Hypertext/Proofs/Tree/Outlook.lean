/-
The outlook from a node: what it contains, and its ancestors with what they
contain. A tree that has only begun to grow gives each of its nodes the outlook
it will have in the end (`Begins.sameOutlook`), also where nodes have been taken
out of both.
-/
import Hypertext.Proofs.Tree.Pruned

namespace Hypertext.Tree

/-- The tree `T` has the nodes of `t`, and in the same places; more may have been added since. -/
structure Begins (t T : Tree) : Prop where
  size_le : t.size ≤ T.size
  content : ∀ id, id.index < t.size → T.content? id = t.content? id
  parent : ∀ id, id.index < t.size → T.parent? id = t.parent? id

/-- Looking up from the node the two trees are the same. -/
structure SameOutlook (t t' : Tree) (id : NodeId) : Prop where
  ancestors : t'.ancestors id = t.ancestors id
  content : ∀ x ∈ id :: t.ancestors id, t'.content? x = t.content? x

variable {t t' u T : Tree} {gone : List NodeId} {id parent child : NodeId}

theorem ancestors_remove (t : Tree) (id : NodeId) : (t.remove id).ancestors id = [] := by
  rw [ancestors, parent?_remove, if_pos rfl]
  cases (t.remove id).size <;> rfl

/-- Taken out of both trees, a node has nothing above it in either. -/
theorem SameOutlook.remove (h : SameOutlook t t' id) : SameOutlook (t.remove id) (t'.remove id) id where
  ancestors := by rw [ancestors_remove, ancestors_remove]
  content x hx := by
    rw [ancestors_remove] at hx
    rw [content?_remove, content?_remove, List.mem_singleton.mp hx]
    exact h.content id List.mem_cons_self

/-! ## Beginnings -/

theorem Begins.refl (t : Tree) : t.Begins t :=
  ⟨Nat.le_refl _, fun _ _ => rfl, fun _ _ => rfl⟩

theorem Begins.trans (h : t.Begins u) (h' : u.Begins T) : t.Begins T where
  size_le := Nat.le_trans h.size_le h'.size_le
  content x hx := (h'.content x (Nat.lt_of_lt_of_le hx h.size_le)).trans (h.content x hx)
  parent x hx := (h'.parent x (Nat.lt_of_lt_of_le hx h.size_le)).trans (h.parent x hx)

theorem begins_create (t : Tree) (content : Content) : t.Begins (t.create content).2 where
  size_le := by rw [size_create]; exact Nat.le_succ _
  content _ hx := content?_create_of_lt content hx
  parent x _ := parent?_create t content x

/-- A node that is new to a tree may be attached. -/
theorem Begins.attach (h : t.Begins u) (parent : NodeId) (hold : t.size ≤ child.index) (hc : child.index < u.size) :
    t.Begins (u.attach parent child) where
  size_le := by rw [size_attach]; exact h.size_le
  content x hx := by rw [content?_attach, h.content x hx]
  parent x hx := by
    rw [parent?_attach hc, if_neg, h.parent x hx]
    intro heq
    subst heq
    omega

theorem begins_wrapper (t : Tree) (parent : NodeId) (tag : String) :
    t.Begins (t.wrapper parent tag).2 := by
  rw [wrapper_eq]
  refine (begins_create t _).attach parent (Nat.le_refl _) ?_
  rw [size_create]
  exact Nat.lt_succ_self _

theorem begins_shelter (t : Tree) (parent : NodeId) (tag : String) :
    t.Begins (t.shelter parent tag).2 := by
  have hwrapper := begins_wrapper t parent
  simp only [shelter]
  by_cases hroot : parent = root ∧ tag ≠ "HTML"
  · simp only [if_pos hroot]
    split
    · exact (hwrapper _).trans (begins_wrapper _ _ _)
    · exact hwrapper _
  · simp only [if_neg hroot]
    split
    · exact hwrapper _
    · exact .refl t

/-- Nodes taken out of a tree when it has begun, and of what it grows into. -/
theorem Begins.pruned (h : t.Begins T) (ht : Pruned gone t t') (hT : Pruned gone T u) :
    t'.Begins u where
  size_le := by rw [ht.size, hT.size]; exact h.size_le
  content x hx := by
    rw [ht.size] at hx
    rw [hT.content, h.content x hx, ht.content]
  parent x hx := by
    rw [ht.size] at hx
    rw [hT.parent, h.parent x hx, ht.parent]

theorem Begins.ancestors_eq (h : t.Begins T) (hl : t.Linked) (hT : T.Linked)
    (hid : id.index < t.size) : T.ancestors id = t.ancestors id := by
  induction id using hl.wellFounded_above.induction with
  | _ id ih =>
    rw [hT.ancestors_eq, hl.ancestors_eq, h.parent id hid]
    cases hp : t.parent? id with
    | none => rfl
    | some p => simp only [ih p (.single hp) (hl.parent_lt_size hp)]

theorem Begins.covers_iff (h : t.Begins T) (hl : t.Linked) (hT : T.Linked) (hid : id.index < t.size)
    {a : NodeId} : T.Covers a id ↔ t.Covers a id := by
  rw [← hT.mem_cons_ancestors, h.ancestors_eq hl hT hid, hl.mem_cons_ancestors]

theorem Begins.sameOutlook (h : t.Begins T) (hl : t.Linked) (hT : T.Linked)
    (hid : id.index < t.size) : SameOutlook t T id where
  ancestors := h.ancestors_eq hl hT hid
  content x hx := by
    refine h.content x ?_
    rcases List.mem_cons.mp hx with rfl | hx
    · exact hid
    · exact hl.above_lt_size (hl.mem_ancestors.mp hx)

end Hypertext.Tree
