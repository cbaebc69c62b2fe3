/-
What matching looks at. Whether a node matches depends on nothing but the
elements from there upwards (`matches_of_elements`), so on nothing but its
outlook, and for a selector of one compound on nothing but what it contains;
and where only comparisons with a meaning are made there is always an answer.
-/
import Hypertext.Proofs.Selector.Climbing
import Hypertext.Proofs.Tree.Outlook

namespace Hypertext

namespace Selector

variable {t t' : Tree} {id id' : NodeId}

theorem Compound.matches_congr (compound : Compound) (h : t'.element? id' = t.element? id) :
    compound.matches t' id' = compound.matches t id := by
  simp only [Compound.matches, h]

/-- Of the ancestors it climbs along a selector sees the elements, one by one. -/
theorem climb_congr (chain : List (Combinator × Compound)) {ids ids' : List NodeId}
    (h : ids'.map t'.element? = ids.map t.element?) : climb t' chain ids' = climb t chain ids := by
  induction ids generalizing ids' chain with
  | nil =>
    rw [List.map_nil, List.map_eq_nil_iff] at h
    rw [h]
    cases chain <;> rfl
  | cons x ids ih =>
    rw [List.map_cons, List.map_eq_cons_iff] at h
    obtain ⟨x', ids', rfl, hx, hids⟩ := h
    cases chain with
    | nil => rfl
    | cons link chain => simp only [climb, Compound.matches_congr link.2 hx, ih _ hids]

/-- Of a tree a selector sees the elements from the node upwards, and nothing else. -/
theorem matches_of_elements (s : Selector)
    (h : (id' :: t'.ancestors id').map t'.element? = (id :: t.ancestors id).map t.element?) :
    s.matches t' id' = s.matches t id := by
  rw [List.map_cons, List.map_cons, List.cons.injEq] at h
  simp only [Selector.matches, Compound.matches_congr s.subject h.1, climb_congr s.chain h.2]

theorem matches_congr (s : Selector) (h : t.SameOutlook t' id) : s.matches t' id = s.matches t id := by
  refine matches_of_elements s ?_
  rw [h.ancestors]
  exact List.map_congr_left fun x hx => Tree.element?_congr (h.content x hx)

theorem anyMatches_congr (selectors : List Selector) (h : t.SameOutlook t' id) :
    anyMatches t' id selectors = anyMatches t id selectors := by
  induction selectors with
  | nil => rfl
  | cons s rest ih => simp only [anyMatches, matches_congr s h, ih]

theorem anyMatches_ok (t : Tree) (id : NodeId) {selectors : List Selector}
    (hs : ∀ s ∈ selectors, s.Supported) : ∃ b, anyMatches t id selectors = .ok b := by
  cases h : anyMatches t id selectors with
  | ok b => exact ⟨b, rfl⟩
  | error u =>
    obtain ⟨before, s, after, rfl, hfails, -⟩ := (anyMatches_eq_iff (by simp)).mp h
    obtain ⟨b, hb⟩ := matches_ok t id (hs s (by simp))
    cases hb.symm.trans hfails

/-- A selector of one compound looks at nothing above the node. -/
theorem matches_congr_of_single {s : Selector} (hs : s.chain = [])
    (h : t'.content? id = t.content? id) : s.matches t' id = s.matches t id := by
  simp only [Selector.matches, hs, Compound.matches_congr s.subject (Tree.element?_congr h), climb]

theorem anyMatches_congr_of_single {selectors : List Selector} (hs : ∀ s ∈ selectors, s.chain = [])
    (h : t'.content? id = t.content? id) : anyMatches t' id selectors = anyMatches t id selectors := by
  induction selectors with
  | nil => rfl
  | cons s rest ih =>
    simp only [anyMatches, matches_congr_of_single (hs s List.mem_cons_self) h,
      ih fun s hs' => hs s (.tail _ hs')]

/-- One of the selectors matches the node. -/
def Picks (t : Tree) (selectors : List Selector) (id : NodeId) : Prop :=
  anyMatches t id selectors = .ok true

instance (t : Tree) (selectors : List Selector) (id : NodeId) : Decidable (Picks t selectors id) :=
  inferInstanceAs (Decidable (_ = _))

theorem anyMatches_eq (t : Tree) (id : NodeId) {selectors : List Selector}
    (hs : ∀ s ∈ selectors, s.Supported) :
    anyMatches t id selectors = .ok (decide (Picks t selectors id)) := by
  obtain ⟨b, hb⟩ := anyMatches_ok t id hs
  cases b <;> simp [Picks, hb]

theorem picks_iff {selectors : List Selector} (hs : ∀ s ∈ selectors, s.Supported) :
    Picks t selectors id ↔ ∃ s ∈ selectors, s.matches t id = .ok true := by
  rw [Picks]
  induction selectors with
  | nil => simp [anyMatches]
  | cons s rest ih =>
    have ih := ih fun s hs' => hs s (.tail _ hs')
    obtain ⟨b, hb⟩ := matches_ok t id (hs s List.mem_cons_self)
    cases b <;> simp [anyMatches, hb, ih]

/-- Only elements match. -/
theorem picks_isElement {selectors : List Selector} (h : Picks t selectors id) :
    t.isElement id = true := by
  by_contra hnot
  have hnone : t.element? id = none := by simpa [Tree.isElement] using hnot
  obtain ⟨before, s, after, -, hs, -⟩ := (anyMatches_eq_iff (by simp)).mp h
  cases (matches_of_element?_none hnone s).symm.trans hs

theorem picks_congr (selectors : List Selector) (h : t.SameOutlook t' id) :
    Picks t' selectors id ↔ Picks t selectors id := by
  rw [Picks, anyMatches_congr selectors h, Picks]

theorem picks_congr_of_single {selectors : List Selector} (hs : ∀ s ∈ selectors, s.chain = [])
    (h : t'.content? id = t.content? id) : Picks t' selectors id ↔ Picks t selectors id := by
  rw [Picks, anyMatches_congr_of_single hs h, Picks]

end Selector

end Hypertext
