/-
What hangs below a node. Two trees may differ elsewhere and have the same
below a node (`SameBelow`); the node's markup is then the same. Of pruned trees
that is so where the same nodes are gone, but for those below others that are
gone (`Pruned.sameBelow`).
-/
import Hypertext.Proofs.Tree.Forest
import Hypertext.Proofs.Tree.Outlook

namespace Hypertext.Tree

/-- At the node and below it, the two trees are the same. -/
structure SameBelow (t t' : Tree) (a : NodeId) : Prop where
  above : ∀ x, t'.Above a x ↔ t.Above a x
  content : ∀ x, t.Covers a x → t'.content? x = t.content? x
  children : ∀ x, t.Covers a x → t'.children x = t.children x

/-- The tree with the nodes and all below them cut out. A document element that is one of them is
replaced by an empty one. -/
def without (t : Tree) (removed : List NodeId) : Tree :=
  let rest := t.removeAll removed
  if t.documentElement?.any (· ∈ removed) then (rest.wrapper root "HTML").2 else rest

variable {t t' u u' : Tree} {gone gone' : List NodeId} {a b : NodeId}

theorem SameBelow.element?_eq (h : SameBelow t t' a) {x : NodeId} (hx : t.Covers a x) :
    t'.element? x = t.element? x := by
  rw [element?, h.content x hx, element?]

theorem SameBelow.documentElement?_eq (h : SameBelow t t' root) (hl : t.Linked) :
    t'.documentElement? = t.documentElement? := by
  rw [documentElement?, documentElement?, h.children root (.refl t root)]
  rw [← List.head?_filter, ← List.head?_filter]
  refine congrArg _ (List.filter_congr fun x hx => ?_)
  rw [isElement, isElement, h.element?_eq (.inr (.single ((hl.mem_children root x).mp hx)))]

/-- The markup of a node depends on nothing but what is below it. -/
theorem SameBelow.outer_eq (h : SameBelow t t' a) (hl : t.Linked) (hl' : t'.Linked)
    (hab : t.Covers a b) : t'.outer b = t.outer b := by
  induction b using hl.wellFounded_below.induction with
  | _ b ih =>
    have hjoin : (t'.children b).map t'.outer = (t.children b).map t.outer := by
      rw [h.children b hab]
      refine List.map_congr_left fun c hc => ?_
      have hp := (hl.mem_children b c).mp hc
      exact ih c (.single hp) (hab.trans (.inr (.single hp)))
    have hcontent := h.content b hab
    cases hc : t.content? b with
    | none =>
      have hnone : ∀ {u : Tree}, u.Linked → u.content? b = none → u.outer b = "" := by
        intro u hu hnone
        rw [content?, Option.map_eq_none_iff] at hnone
        simp only [hu.outer_eq, hnone]
      rw [hnone hl hc, hnone hl' (hcontent.trans hc)]
    | some c =>
      rw [hc] at hcontent
      cases c with
      | document => rw [hl.outer_of_document hc, hl'.outer_of_document hcontent, hjoin]
      | text s => rw [hl.outer_of_text hc, hl'.outer_of_text hcontent]
      | element e => rw [hl.outer_of_element hc, hl'.outer_of_element hcontent, hjoin]

/-- The same nodes are gone below the node, but for those below others that are gone. -/
def GoneAlike (t : Tree) (a : NodeId) (gone gone' : List NodeId) : Prop :=
  ∀ x, t.Above a x → (∀ b, t.Above a b → t.Above b x → b ∉ gone) → (x ∈ gone ↔ x ∈ gone')

/-- What can still be reached in one of the trees can be reached in the other. -/
theorem GoneAlike.free_iff (h : t.GoneAlike a gone gone') (hl : t.Linked) (x : NodeId) :
    (∀ b, t.Above a b → t.Covers b x → b ∉ gone') ↔ ∀ b, t.Above a b → t.Covers b x → b ∉ gone := by
  constructor
  · intro hfree b hab hbx
    induction b using hl.wellFounded_above.induction with
    | _ b ih =>
      rw [h b hab fun c hac hcb => ih c hcb hac (.inr (hcb.trans_covers hbx))]
      exact hfree b hab hbx
  · intro hfree b hab hbx
    rw [← h b hab fun c hac hcb => hfree c hac (.inr (hcb.trans_covers hbx))]
    exact hfree b hab hbx

theorem Pruned.sameBelow (h : Pruned gone t u) (h' : Pruned gone' t u') (hl : t.Linked)
    (hgone : t.GoneAlike a gone gone') : SameBelow u' u a := by
  have habove : ∀ x, u.Above a x ↔ u'.Above a x := fun x => by
    rw [h.above_iff hl, h'.above_iff hl, hgone.free_iff hl]
  refine ⟨habove, fun x _ => by rw [h.content, h'.content], fun x hx => ?_⟩
  rw [h.children, h'.children]
  refine List.filter_congr fun c hc => ?_
  have hp := (hl.mem_children x c).mp hc
  suffices hfree : ∀ b, t.Above a b → t.Above b c → b ∉ gone by
    simp only [hgone c ((above_iff_covers hp).mpr (hx.imp_right h'.above)) hfree]
  intro b hab hbc
  have hbx := (above_iff_covers hp).mp hbc
  rcases hx with rfl | hx
  · exact absurd hbx (hl.not_covers_of_above hab)
  · exact ((h.above_iff hl).mp ((habove x).mpr hx)).2 b hab hbx

/-- Growth does not change which nodes are gone. -/
theorem GoneAlike.begins (h : t.GoneAlike a gone gone') (hl : t.Linked) (hl' : t'.Linked)
    (hbegins : t.Begins t') (hgone : ∀ x ∈ gone, x.index < t.size)
    (hgone' : ∀ x ∈ gone', x.index < t.size) : t'.GoneAlike a gone gone' := by
  intro x hx hfree
  by_cases hlt : x.index < t.size
  · have habove : ∀ b, t'.Above b x ↔ t.Above b x := fun b => by
      rw [← hl'.mem_ancestors, hbegins.ancestors_eq hl hl' hlt, hl.mem_ancestors]
    refine h x ((habove a).mp hx) fun b hab hbx => hfree b ?_ ((habove b).mpr hbx)
    rw [← hl'.mem_ancestors, hbegins.ancestors_eq hl hl' (hl.above_lt_size hbx), hl.mem_ancestors]
    exact hab
  · exact iff_of_false (fun hmem => hlt (hgone x hmem)) fun hmem => hlt (hgone' x hmem)

end Hypertext.Tree
