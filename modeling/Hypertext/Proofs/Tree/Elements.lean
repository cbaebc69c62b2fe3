/-
The elements of a document, as they are listed. What is listed is what can be
reached from the document by following children (`Linked.mem_elements`), each
element once, and of two elements that one first which precedes the other: the
other is below it, or below a later sibling of a node that it is at or below
(`Linked.sublist_elements`).
-/
import Mathlib.Data.List.Flatten
import Hypertext.Proofs.Tree.Order

namespace Hypertext.Tree

/-- `d` is `a`, or is found from there by following children. -/
def Reaches (t : Tree) : NodeId → NodeId → Prop :=
  Relation.ReflTransGen fun p c => c ∈ t.children p

/-- `b` is below `a`, or of two children of a node the earlier one reaches `a` and the later one
`b`. -/
def Precedes (t : Tree) (a b : NodeId) : Prop :=
  (a ≠ b ∧ t.Reaches a b) ∨
    ∃ p x y, [x, y].Sublist (t.children p) ∧ t.Reaches x a ∧ t.Reaches y b

variable {t : Tree} {a b d p x y : NodeId}

namespace Linked

variable (hl : t.Linked)
include hl

theorem reaches_iff_covers : t.Reaches a d ↔ t.Covers a d := by
  rw [Reaches, Relation.reflTransGen_iff_eq_or_transGen, ← hl.above_eq_below, Covers, eq_comm]

theorem ne_and_reaches_iff_above : a ≠ b ∧ t.Reaches a b ↔ t.Above a b := by
  rw [hl.reaches_iff_covers]
  constructor
  · rintro ⟨hne, hcovers⟩
    exact hcovers.resolve_left hne
  · intro habove
    refine ⟨?_, .inr habove⟩
    rintro rfl
    exact hl.acyclic a habove

theorem sublist_walk_of_child (hb : b ∈ t.children a) : (t.walk b).Sublist (t.walk a) := by
  rw [hl.walk_eq (lt_size_of_mem_children hb)]
  have hsublist := (List.singleton_sublist.mpr hb).flatMap t.walk
  rw [List.flatMap_singleton] at hsublist
  exact hsublist.cons a

theorem sublist_walk (h : t.Covers a b) : (t.walk b).Sublist (t.walk a) := by
  rcases h with rfl | h
  · exact List.Sublist.refl _
  · induction h with
    | single hp => exact hl.sublist_walk_of_child ((hl.mem_children _ _).mpr hp)
    | tail _ hp ih => exact (hl.sublist_walk_of_child ((hl.mem_children _ _).mpr hp)).trans ih

/-- Of two nodes met on a walk the one met first precedes the other. -/
theorem pairwise_walk (hid : p.index < t.size) : (t.walk p).Pairwise t.Precedes := by
  induction p using hl.wellFounded_below.induction with
  | _ p ih =>
    have hmem : ∀ c ∈ t.children p, ∀ x ∈ t.walk c, t.Reaches c x := fun c hc x hx =>
      hl.reaches_iff_covers.mpr ((hl.mem_walk (hl.child_lt_size hc)).mp hx)
    rw [hl.walk_eq hid, List.pairwise_cons, List.pairwise_flatMap]
    -- the node and what is below it, two nodes below one child, and below two of them
    refine ⟨fun x hx => ?_, fun c hc => ?_, ?_⟩
    · obtain ⟨c, hc, hx⟩ := List.mem_flatMap.mp hx
      refine .inl (hl.ne_and_reaches_iff_above.mpr ?_)
      rw [hl.above_eq_below]
      exact .head' hc (hmem c hc x hx)
    · exact ih c (.single ((hl.mem_children p c).mp hc)) (hl.child_lt_size hc)
    · rw [List.pairwise_iff_forall_sublist]
      intro c d hsublist x hx y hy
      have hc : c ∈ t.children p := hsublist.subset (by simp)
      have hd : d ∈ t.children p := hsublist.subset (by simp)
      exact .inr ⟨p, c, d, hsublist, hmem c hc x hx, hmem d hd y hy⟩

/-! ## From the document down -/

section Document

variable (hdocument : t.content? root = some .document)
include hdocument

/-- Where a child of a node covers something in the document, the node is in the document. -/
theorem covers_root_parent (hpx : t.parent? x = some p) (hxa : t.Covers x a)
    (ha : t.Covers root a) : t.Covers root p := by
  have htop := hl.document_top root hdocument
  -- the child and the document stand in one line, and the document is at its top
  rcases ha.total hxa with hx | (rfl | hx)
  · rw [← above_iff_covers hpx]
    refine hx.resolve_left ?_
    rintro rfl
    cases htop.symm.trans hpx
  · cases htop.symm.trans hpx
  · exact absurd hx (not_above_of_parent?_none htop)

/-- A node that precedes another is met first. -/
theorem sublist_walk_of_precedes (ha : t.Covers root a) (h : t.Precedes a b) :
    [a, b].Sublist (t.walk root) := by
  rcases h with hab | ⟨p, x, y, hsublist, hxa, hyb⟩
  · have habove := hl.ne_and_reaches_iff_above.mp hab
    have hsize := hl.above_lt_size habove
    refine List.Sublist.trans ?_ (hl.sublist_walk ha)
    have hb := (hl.mem_walk hsize).mpr (.inr habove)
    rw [hl.walk_eq hsize] at hb ⊢
    exact (List.singleton_sublist.mpr ((List.mem_cons.mp hb).resolve_left hab.1.symm)).cons_cons a
  · have hx : x ∈ t.children p := hsublist.subset (by simp)
    have hy : y ∈ t.children p := hsublist.subset (by simp)
    rw [hl.reaches_iff_covers] at hxa hyb
    have hp := hl.covers_root_parent hdocument ((hl.mem_children p x).mp hx) hxa ha
    have hwalks : [a, b].Sublist (t.walk x ++ t.walk y) :=
      (List.singleton_sublist.mpr ((hl.mem_walk (hl.child_lt_size hx)).mpr hxa)).append
        (List.singleton_sublist.mpr ((hl.mem_walk (hl.child_lt_size hy)).mpr hyb))
    refine hwalks.trans (List.Sublist.trans ?_ (hl.sublist_walk hp))
    have hchildren := hsublist.flatMap t.walk
    rw [hl.walk_eq (lt_size_of_mem_children hx)]
    simpa using hchildren.cons p

/-- All elements that can be reached are listed, and nothing else is. -/
theorem mem_elements : a ∈ t.elements ↔ t.Reaches root a ∧ t.isElement a = true := by
  rw [elements, List.mem_filter, hl.mem_walk (lt_size_of_content? hdocument), hl.reaches_iff_covers]

/-- No element is listed twice. -/
theorem nodup_elements : t.elements.Nodup :=
  (hl.nodup_walk (lt_size_of_content? hdocument)).filter _

/-- Of two elements that one is listed first which precedes the other. -/
theorem sublist_elements (ha : a ∈ t.elements) (hb : b ∈ t.elements) :
    [a, b].Sublist t.elements ↔ t.Precedes a b := by
  constructor
  · intro hsublist
    have hpairwise := hl.pairwise_walk (lt_size_of_content? hdocument)
    exact List.pairwise_iff_forall_sublist.mp (hpairwise.filter _) hsublist
  · intro hprecedes
    have hreach := hl.reaches_iff_covers.mp ((hl.mem_elements hdocument).mp ha).1
    have hsublist := (hl.sublist_walk_of_precedes hdocument hreach hprecedes).filter t.isElement
    rwa [List.filter_cons_of_pos (List.mem_filter.mp ha).2,
      List.filter_cons_of_pos (List.mem_filter.mp hb).2, List.filter_nil] at hsublist

end Document

end Linked

end Hypertext.Tree
