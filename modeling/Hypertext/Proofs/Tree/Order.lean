/-
Document order. A walk from a node meets the node and all below it, each once
(`Linked.mem_walk`, `Linked.nodup_walk`), and the walk of the document is made of
what comes before a node, the node's own walk, and what stands behind it. Growth
at the node puts what is new between the last two (`Grown.walk_root`).

The text content of a node is its texts in this order (`Linked.textContent_eq`).
-/
import Mathlib.Data.List.Nodup
import Hypertext.Proofs.Tree.Grown
import Hypertext.Proofs.Tree.Lines

namespace Hypertext.Tree

/-- The texts of the document, from first to last. -/
def texts (t : Tree) : List NodeId :=
  (t.walk root).filter fun id => (t.text? id).isSome

/-- The texts there are, in the order they were made. -/
def madeTexts (t : Tree) : List NodeId :=
  t.ids.filter fun id => (t.text? id).isSome

/-- In document order the node comes after `p` and all below `p`. -/
def Behind (t : Tree) (p id : NodeId) : Prop :=
  ∃ before after, t.walk root = before ++ t.walk p ++ after ∧ id ∈ after

variable {t t' : Tree} {p id x : NodeId} {ids : List NodeId}

/-! ## Walks -/

theorem Linked.walkFrom_eq_walk (hl : t.Linked) {n : Nat} (hn : t.size ≤ n) (hid : id.index < t.size) :
    t.walkFrom n id = t.walk id := by
  refine hl.fuel_irrelevant (f := t.walkFrom) (fun n m id h => ?_) hid (by omega) (by omega)
  rw [walkFrom, walkFrom, List.flatMap_congr h]

theorem Linked.walk_eq (hl : t.Linked) (hid : id.index < t.size) :
    t.walk id = id :: (t.children id).flatMap t.walk := by
  have hchildren : ∀ c ∈ t.children id, t.walkFrom t.size c = t.walk c := fun _ _ => rfl
  rw [← hl.walkFrom_eq_walk (Nat.le_succ t.size) hid, walkFrom, List.flatMap_congr hchildren]

theorem Linked.mem_walk (hl : t.Linked) (hid : id.index < t.size) :
    x ∈ t.walk id ↔ t.Covers id x := by
  induction id using hl.wellFounded_below.induction with
  | _ id ih =>
    have hbelow : x ∈ (t.children id).flatMap t.walk ↔ t.Under (t.children id) x := by
      rw [List.mem_flatMap, Under]
      refine exists_congr fun c => and_congr_right fun hc => ?_
      exact ih c (.single ((hl.mem_children id c).mp hc)) (hl.child_lt_size hc)
    rw [hl.walk_eq hid, List.mem_cons, hbelow, hl.under_children, Covers, eq_comm]

theorem Linked.nodup_walk (hl : t.Linked) (hid : id.index < t.size) : (t.walk id).Nodup := by
  induction id using hl.wellFounded_below.induction with
  | _ id ih =>
    rw [hl.walk_eq hid, List.nodup_cons, List.nodup_flatMap]
    have hparent : ∀ c ∈ t.children id, t.parent? c = some id := fun c => (hl.mem_children id c).mp
    refine ⟨fun hmem => ?_, fun c hc => ih c (.single (hparent c hc)) (hl.child_lt_size hc), ?_⟩
    · obtain ⟨c, hc, hmem⟩ := List.mem_flatMap.mp hmem
      have hcovers := (hl.mem_walk (hl.child_lt_size hc)).mp hmem
      exact hl.not_covers_of_above (.single (hparent c hc)) hcovers
    · refine (hl.nodup id).imp_of_mem ?_
      intro a b ha hb hne x hxa hxb
      exact hne (hl.eq_of_covers (hparent a ha) (hparent b hb)
        ((hl.mem_walk (hl.child_lt_size ha)).mp hxa) ((hl.mem_walk (hl.child_lt_size hb)).mp hxb))

/-- Wherever the walk of the document is cut into what comes before the node, its own walk and the
rest, the rest is what stands behind it. -/
theorem Linked.behind_iff (hl : t.Linked) (hroot : root.index < t.size) (hp : p.index < t.size)
    {before after : List NodeId} (hwalk : t.walk root = before ++ t.walk p ++ after) :
    t.Behind p x ↔ x ∈ after := by
  refine ⟨?_, fun hx => ⟨before, after, hwalk, hx⟩⟩
  rintro ⟨before', after', hwalk', hx⟩
  have hnodup := hl.nodup_walk hroot
  have hsame := hwalk.symm.trans hwalk'
  rw [hwalk, hl.walk_eq hp] at hnodup
  rw [hl.walk_eq hp] at hsame
  simp only [List.append_assoc, List.cons_append] at hnodup hsame
  have hbefore := (List.nodup_cons.mp (List.nodup_middle.mp hnodup)).1
  rw [List.append_cons_inj_of_notMem (fun h => hbefore (List.mem_append_left _ h))
    (fun h => hbefore (List.mem_append_right _ h))] at hsame
  rw [List.append_cancel_left hsame.2.2]
  exact hx

/-- All known nodes are in the document: each but the document itself hangs somewhere. -/
def Whole (t : Tree) : Prop :=
  ∀ id, id.index < t.size → id ≠ root → ∃ parent, t.parent? id = some parent

theorem Whole.covers (h : t.Whole) (hl : t.Linked) (hid : id.index < t.size) : t.Covers root id := by
  induction id using hl.wellFounded_above.induction with
  | _ id ih =>
    by_cases hroot : id = root
    · rw [hroot]
      exact .refl t root
    · obtain ⟨parent, hparent⟩ := h id hid hroot
      exact (ih parent (.single hparent) (hl.parent_lt_size hparent)).trans (.inr (.single hparent))

/-! ## Growth -/

section Growth

variable (hl : t.Linked) (h : Grown t t' p ids)
include hl h

/-- The walk of what does not cover the place stays. -/
theorem Grown.walk_of_not_covers (hid : id.index < t.size) (hnot : ¬ t.Covers id p) :
    t'.walk id = t.walk id := by
  induction id using hl.wellFounded_below.induction with
  | _ id ih =>
    have hne : id ≠ p := fun heq => hnot (.inl heq)
    rw [hl.walk_eq hid, h.linked.walk_eq (Nat.lt_of_lt_of_le hid h.size_le), h.children id hid hne]
    refine congrArg _ (List.flatMap_congr fun c hc => ?_)
    have hparent := (hl.mem_children id c).mp hc
    exact ih c (.single hparent) (hl.child_lt_size hc) fun hcovers =>
      hnot (.trans (.inr (.single hparent)) hcovers)

theorem Grown.walk_self (hp : p.index < t.size) :
    t'.walk p = t.walk p ++ ids.flatMap t'.walk := by
  rw [hl.walk_eq hp, h.linked.walk_eq (Nat.lt_of_lt_of_le hp h.size_le), h.added, List.flatMap_append,
    List.cons_append]
  refine congrArg (fun walks => p :: (walks ++ ids.flatMap t'.walk)) (List.flatMap_congr fun c hc => ?_)
  have hparent := (hl.mem_children p c).mp hc
  exact h.walk_of_not_covers hl (hl.child_lt_size hc) (hl.not_covers_of_above (.single hparent))

/-- What is new comes behind all that is below the place. -/
theorem Grown.walk_covers {a : NodeId} (hp : p.index < t.size) (ha : t.Covers a p) :
    ∃ before after, t.walk a = before ++ t.walk p ++ after ∧
      t'.walk a = before ++ t.walk p ++ ids.flatMap t'.walk ++ after := by
  -- along the line from the place up to `a`
  have hstep : ∀ {c a : NodeId}, t.parent? c = some a → t.Covers c p →
      (∃ before after, t.walk c = before ++ t.walk p ++ after ∧
        t'.walk c = before ++ t.walk p ++ ids.flatMap t'.walk ++ after) →
      ∃ before after, t.walk a = before ++ t.walk p ++ after ∧
        t'.walk a = before ++ t.walk p ++ ids.flatMap t'.walk ++ after := by
    rintro c a hparent hcovers ⟨before, after, hwalk, hwalk'⟩
    have hc := (hl.mem_children a c).mpr hparent
    have ha := lt_size_of_mem_children hc
    have hne : a ≠ p := fun heq => hl.not_covers_of_above (.single hparent) (heq ▸ hcovers)
    obtain ⟨left, right, hsplit⟩ := List.append_of_mem hc
    have hsiblings : ∀ b ∈ left ++ right, t'.walk b = t.walk b := by
      intro b hb
      have hnodup : (left ++ c :: right).Nodup := hsplit ▸ hl.nodup a
      have hbc : b ≠ c := by
        rintro rfl
        exact (List.nodup_cons.mp (List.nodup_middle.mp hnodup)).1 hb
      have hmem : b ∈ t.children a := by
        rw [hsplit]
        exact List.perm_middle.mem_iff.mpr (.tail _ hb)
      exact h.walk_of_not_covers hl (hl.child_lt_size hmem) fun hbp =>
        hbc (hl.eq_of_covers ((hl.mem_children a b).mp hmem) hparent hbp hcovers)
    refine ⟨a :: left.flatMap t.walk ++ before, after ++ right.flatMap t.walk, ?_, ?_⟩
    · rw [hl.walk_eq ha, hsplit, List.flatMap_append, List.flatMap_cons, hwalk]
      simp [List.append_assoc]
    · rw [h.linked.walk_eq (Nat.lt_of_lt_of_le ha h.size_le), h.children a ha hne, hsplit,
        List.flatMap_append, List.flatMap_cons, hwalk',
        List.flatMap_congr fun b hb => hsiblings b (List.mem_append_left _ hb),
        List.flatMap_congr fun b hb => hsiblings b (List.mem_append_right _ hb)]
      simp [List.append_assoc]
  rcases ha with rfl | ha
  · exact ⟨[], [], by simp, by simpa using h.walk_self hl hp⟩
  · induction ha using Relation.TransGen.head_induction_on with
    | single hparent => 
      exact hstep hparent (.refl t p) ⟨[], [], by simp, by simpa using h.walk_self hl hp⟩
    | head hparent habove ih => exact hstep hparent (.inr habove) ih

end Growth

/-- The walk of a document that grows at a node. -/
theorem Grown.walk_root (h : Grown t t' p ids) (hl : t.Linked) (hp : t.Covers root p)
    (hroot : root.index < t.size) (hknown : p.index < t.size) :
    ∃ before after, t.walk root = before ++ after ∧
      t'.walk root = before ++ ids.flatMap t'.walk ++ after ∧ ∀ x, x ∈ after ↔ t.Behind p x := by
  obtain ⟨before, after, hwalk, hwalk'⟩ := h.walk_covers hl hknown hp
  exact ⟨before ++ t.walk p, after, hwalk, hwalk', fun x => (hl.behind_iff hroot hknown hwalk).symm⟩

theorem Linked.known_of_mem_walk (hl : t.Linked) (hroot : root.index < t.size) (hx : x ∈ t.walk root) :
    x.index < t.size := by
  rcases (hl.mem_walk hroot).mp hx with rfl | habove
  · exact hroot
  · exact habove.lt_size

/-- What is known keeps being a text or not. -/
theorem Grown.filter_texts (h : Grown t t' p ids) {l : List NodeId} (hl : ∀ x ∈ l, x.index < t.size) :
    l.filter (fun id => (t'.text? id).isSome) = l.filter fun id => (t.text? id).isSome :=
  List.filter_congr fun x hx => by rw [text?_congr (h.content x (hl x hx))]

/-- A new text comes right before the texts behind the place. -/
theorem Grown.texts_of_text (h : Grown t t' p [id]) (hl : t.Linked) (hp : t.Covers root p)
    (hroot : root.index < t.size) (hknown : p.index < t.size) (hleaf : t'.children id = [])
    {s : String} (htext : t'.text? id = some s) :
    ∃ before after, t.texts = before ++ after ∧ t'.texts = before ++ id :: after ∧
      (after = [] ↔ ∀ x ∈ t.texts, ¬ t.Behind p x) := by
  obtain ⟨before, after, hwalk, hwalk', hbehind⟩ := h.walk_root hl hp hroot hknown
  have hsame : ∀ l ⊆ t.walk root, l.filter (fun id => (t'.text? id).isSome) =
      l.filter fun id => (t.text? id).isSome :=
    fun l hsub => h.filter_texts fun x hx => hl.known_of_mem_walk hroot (hsub hx)
  have hid : [id].flatMap t'.walk = [id] := by
    have hlt := lt_size_of_content? (text?_eq_some.mp htext)
    rw [List.flatMap_singleton, h.linked.walk_eq hlt, hleaf, List.flatMap_nil]
  have htexts : t.texts = before.filter (fun id => (t.text? id).isSome) ++
      after.filter fun id => (t.text? id).isSome := by
    rw [texts, hwalk, List.filter_append]
  refine ⟨_, _, htexts, ?_, ?_⟩
  · rw [texts, hwalk', hid, List.filter_append, List.filter_append,
      hsame before (by rw [hwalk]; exact List.subset_append_left _ _),
      hsame after (by rw [hwalk]; exact List.subset_append_right _ _),
      List.filter_cons_of_pos (by rw [htext]; rfl), List.filter_nil, List.append_assoc]
    rfl
  · rw [List.filter_eq_nil_iff, texts, hwalk]
    constructor
    · intro hnone x hx hbehindx
      exact hnone x ((hbehind x).mpr hbehindx) (List.mem_filter.mp hx).2
    · intro hnone x hx hsome
      exact hnone x (List.mem_filter.mpr ⟨List.mem_append_right _ hx, hsome⟩) ((hbehind x).mp hx)

/-- What has no text in it brings none. -/
theorem Grown.texts_eq (h : Grown t t' p ids) (hl : t.Linked) (hwhole : t.Whole)
    (hroot : root.index < t.size) (hknown : p.index < t.size)
    (hold : ∀ id s, t'.text? id = some s → id.index < t.size) : t'.texts = t.texts := by
  obtain ⟨before, after, hwalk, hwalk', -⟩ :=
    h.walk_root hl (hwhole.covers hl hknown) hroot hknown
  have hnodup := h.linked.nodup_walk (Nat.lt_of_lt_of_le hroot h.size_le)
  have hnone : (ids.flatMap t'.walk).filter (fun id => (t'.text? id).isSome) = [] := by
    rw [List.filter_eq_nil_iff]
    intro x hx hsome
    obtain ⟨s, hs⟩ := Option.isSome_iff_exists.mp hsome
    -- an old text is met already where it was
    have hmem : x ∈ before ++ after := by
      rw [← hwalk, hl.mem_walk hroot]
      exact hwhole.covers hl (hold x s hs)
    rw [hwalk', List.append_assoc, (List.perm_append_comm_assoc _ _ _).nodup_iff] at hnodup
    exact (List.nodup_append.mp hnodup).2.2 x hx x hmem rfl
  rw [texts, hwalk', List.filter_append, List.filter_append, hnone, List.append_nil,
    ← List.filter_append, ← hwalk, texts]
  exact h.filter_texts fun x hx => hl.known_of_mem_walk hroot hx

theorem ids_of_size_le (h : t.size ≤ t'.size) :
    ∃ new, t'.ids = t.ids ++ new ∧ ∀ x ∈ new, t.size ≤ x.index ∧ x.index < t'.size := by
  obtain ⟨k, hk⟩ := Nat.exists_eq_add_of_le h
  refine ⟨((List.range k).map (t.size + ·)).map NodeId.mk, ?_, fun x hx => ?_⟩
  · rw [Tree.ids, hk, List.range_add, List.map_append, Tree.ids]
  · obtain ⟨i, hi, rfl⟩ := List.mem_map.mp hx
    obtain ⟨j, hj, rfl⟩ := List.mem_map.mp hi
    have hlt := List.mem_range.mp hj
    exact ⟨Nat.le_add_right _ _, by rw [hk]; exact Nat.add_lt_add_left hlt _⟩

theorem Grown.madeTexts_eq (h : Grown t t' p ids)
    (hold : ∀ id s, t'.text? id = some s → id.index < t.size) : t'.madeTexts = t.madeTexts := by
  obtain ⟨new, hids, hnew⟩ := ids_of_size_le h.size_le
  have hnone : new.filter (fun id => (t'.text? id).isSome) = [] := by
    rw [List.filter_eq_nil_iff]
    intro x hx hsome
    obtain ⟨s, hs⟩ := Option.isSome_iff_exists.mp hsome
    exact absurd (hold x s hs) (Nat.not_lt.mpr (hnew x hx).1)
  rw [madeTexts, hids, List.filter_append, hnone, List.append_nil, madeTexts]
  exact h.filter_texts fun x hx => mem_ids.mp hx

/-- A new text is made last. -/
theorem Grown.madeTexts_of_text (h : Grown t t' p ids) (hsize : t'.size = t.size + 1) {s : String}
    (htext : t'.text? ⟨t.size⟩ = some s) : t'.madeTexts = t.madeTexts ++ [⟨t.size⟩] := by
  have hids : t'.ids = t.ids ++ [⟨t.size⟩] := by
    rw [Tree.ids, hsize, List.range_succ, List.map_append, List.map_singleton, Tree.ids]
  rw [madeTexts, hids, List.filter_append, List.filter_cons_of_pos (by rw [htext]; rfl),
    List.filter_nil, madeTexts, h.filter_texts fun x hx => mem_ids.mp hx]

/-- A new text keeps the order where nothing stands behind its place. -/
theorem Grown.texts_eq_madeTexts_iff (h : Grown t t' p [⟨t.size⟩]) (hl : t.Linked)
    (hp : t.Covers root p) (hroot : root.index < t.size) (hknown : p.index < t.size)
    (hleaf : t'.children ⟨t.size⟩ = []) (hsize : t'.size = t.size + 1) {s : String}
    (htext : t'.text? ⟨t.size⟩ = some s) :
    t'.texts = t'.madeTexts ↔ t.texts = t.madeTexts ∧ ∀ x ∈ t.texts, ¬ t.Behind p x := by
  obtain ⟨before, after, htexts, htexts', hlast⟩ := h.texts_of_text hl hp hroot hknown hleaf htext
  have hfresh : ⟨t.size⟩ ∉ before ++ after := by
    rw [← htexts]
    intro hmem
    exact Nat.lt_irrefl _ (hl.known_of_mem_walk hroot (List.mem_filter.mp hmem).1)
  rw [List.mem_append, not_or] at hfresh
  rw [← hlast, htexts', h.madeTexts_of_text hsize htext,
    List.append_cons_inj_of_notMem hfresh.1 hfresh.2]
  constructor
  · rintro ⟨rfl, -, rfl⟩
    exact ⟨by rw [htexts, List.append_nil], rfl⟩
  · rintro ⟨hsame, rfl⟩
    rw [htexts, List.append_nil] at hsame
    exact ⟨hsame, rfl, rfl⟩

/-- What the texts say stays. -/
theorem Grown.filterMap_madeTexts (h : Grown t t' p ids) :
    t.madeTexts.filterMap t'.text? = t.madeTexts.filterMap t.text? :=
  List.filterMap_congr fun x hx => text?_congr (h.content x (mem_ids.mp (List.mem_filter.mp hx).1))

/-- In a whole document each text stands once. -/
theorem Whole.texts_perm (h : t.Whole) (hl : t.Linked) (hroot : root.index < t.size) :
    t.texts.Perm t.madeTexts := by
  have hids : t.ids.Nodup := List.nodup_range.map fun _ _ heq => congrArg NodeId.index heq
  refine ((List.perm_ext_iff_of_nodup (hl.nodup_walk hroot) hids).mpr fun x => ?_).filter _
  rw [hl.mem_walk hroot, mem_ids]
  exact ⟨fun hcovers => hl.known_of_mem_walk hroot ((hl.mem_walk hroot).mpr hcovers), h.covers hl⟩

/-- What hangs somewhere hangs there after growth, too. -/
theorem Grown.parent (h : Grown t t' p ids) (hl : t.Linked) {parent : NodeId}
    (hparent : t.parent? id = some parent) : t'.parent? id = some parent := by
  rw [← h.linked.mem_children]
  have hmem := (hl.mem_children parent id).mpr hparent
  by_cases hp : parent = p
  · rw [hp] at hmem ⊢
    rw [h.added]
    exact List.mem_append_left _ hmem
  · rwa [h.children parent (lt_size_of_mem_children hmem) hp]

theorem Grown.whole (h : Grown t t' p ids) (hl : t.Linked) (hwhole : t.Whole)
    (hnew : ∀ id, t.size ≤ id.index → id.index < t'.size → ∃ parent, t'.parent? id = some parent) :
    t'.Whole := by
  intro id hid hroot
  by_cases hold : id.index < t.size
  · obtain ⟨parent, hparent⟩ := hwhole id hold hroot
    exact ⟨parent, h.parent hl hparent⟩
  · exact hnew id (Nat.le_of_not_lt hold) hid

/-! ## Text content -/

theorem Linked.textContent_eq (hl : t.Linked) (id : NodeId) :
    t.textContent id = match t.text? id with
      | some s => s
      | none => String.join ((t.children id).map t.textContent) := by
  rw [← hl.textFrom_eq_textContent (Nat.le_succ t.size)]
  rfl

theorem join_filterMap_flatMap {α β : Type} (f : α → List β) (g : β → Option String) (l : List α) :
    String.join ((l.flatMap f).filterMap g) =
      String.join (l.map fun a => String.join ((f a).filterMap g)) := by
  induction l with
  | nil => rfl
  | cons a l ih =>
    rw [List.flatMap_cons, List.filterMap_append, String.join_append, ih, List.map_cons,
      String.join_cons]

/-- The text content of a node is the texts below it, in document order. -/
theorem Linked.textContent_walk (hl : t.Linked) (hid : id.index < t.size) :
    t.textContent id = String.join ((t.walk id).filterMap t.text?) := by
  induction id using hl.wellFounded_below.induction with
  | _ id ih =>
    rw [hl.textContent_eq, hl.walk_eq hid]
    cases htext : t.text? id with
    | some s =>
      rw [hl.text_leaf id s htext, List.filterMap_cons_some htext]
      simp
    | none =>
      rw [List.filterMap_cons_none htext, join_filterMap_flatMap]
      refine congrArg _ (List.map_congr_left fun c hc => ?_)
      exact ih c (.single ((hl.mem_children id c).mp hc)) (hl.child_lt_size hc)

theorem Linked.textContent_root (hl : t.Linked) (hroot : root.index < t.size) :
    t.textContent root = String.join (t.texts.filterMap t.text?) := by
  rw [hl.textContent_walk hroot, texts, List.filterMap_filter]
  refine congrArg _ (List.filterMap_congr fun id _ => ?_)
  cases t.text? id with
  | none => rfl
  | some s => rfl

end Hypertext.Tree
