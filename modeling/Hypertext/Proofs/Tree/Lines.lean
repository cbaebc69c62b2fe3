/-
Lines of ancestors. What covers a node, itself and all above it, stands in one
line, so of two nodes that cover a third one covers the other, and of two
children of a node no more than one covers it (`Linked.eq_of_covers`).
-/
import Hypertext.Proofs.Tree.Linked

namespace Hypertext.Tree

variable {t : Tree} {a b d p : NodeId}

/-- The node is `a` or below it. -/
def Covers (t : Tree) (a d : NodeId) : Prop :=
  a = d ∨ t.Above a d

/-- The node is covered by one of the nodes. -/
def Under (t : Tree) (ids : List NodeId) (d : NodeId) : Prop :=
  ∃ a ∈ ids, t.Covers a d

theorem Covers.refl (t : Tree) (a : NodeId) : t.Covers a a :=
  .inl rfl

theorem Covers.trans (h : t.Covers a b) (h' : t.Covers b d) : t.Covers a d := by
  rcases h with rfl | h
  · exact h'
  · rcases h' with rfl | h'
    · exact .inr h
    · exact .inr (h.trans h')

theorem Covers.above (h : t.Covers a b) (h' : t.Above b d) : t.Above a d := by
  rcases h with rfl | h
  · exact h'
  · exact h.trans h'

theorem Above.trans_covers (h : t.Above a b) (h' : t.Covers b d) : t.Above a d := by
  rcases h' with rfl | h'
  · exact h
  · exact h.trans h'

/-- What is above a child covers its parent. -/
theorem above_iff_covers (hp : t.parent? d = some p) : t.Above a d ↔ t.Covers a p := by
  rw [above_iff]
  constructor
  · rintro ⟨q, hq, h⟩
    rw [hp] at hq
    cases hq
    exact h
  · exact fun h => ⟨p, hp, h⟩

theorem covers_iff (hp : t.parent? d = some p) : t.Covers a d ↔ a = d ∨ t.Covers a p := by
  rw [Covers, above_iff_covers hp]

/-- Nothing is above a node without a parent. -/
theorem not_above_of_parent?_none (hp : t.parent? d = none) : ¬ t.Above a d := by
  intro h
  obtain ⟨q, hq, -⟩ := above_iff.mp h
  cases hp.symm.trans hq

theorem under_cons {ids : List NodeId} : t.Under (a :: ids) d ↔ t.Covers a d ∨ t.Under ids d := by
  simp [Under]

theorem not_under_nil : ¬ t.Under [] d := by
  simp [Under]

theorem under_singleton : t.Under [a] d ↔ t.Covers a d := by
  simp [Under]

/-- Of two nodes that cover a third, one covers the other. -/
theorem Covers.total (h : t.Covers a d) : t.Covers b d → t.Covers a b ∨ t.Covers b a := by
  rcases h with rfl | h
  · exact .inr
  · induction h with
    | single hp =>
      intro hb
      rcases (covers_iff hp).mp hb with rfl | hb
      · exact .inl (.inr (.single hp))
      · exact .inr hb
    | tail ha hp ih =>
      intro hb
      rcases (covers_iff hp).mp hb with rfl | hb
      · exact .inl (.inr (.tail ha hp))
      · exact ih hb

namespace Linked

variable (hl : t.Linked)
include hl

theorem not_covers_of_above (h : t.Above a d) : ¬ t.Covers d a := by
  rintro (rfl | h')
  · exact hl.acyclic d h
  · exact hl.acyclic a (h.trans h')

theorem covers_antisymm (h : t.Covers a d) (h' : t.Covers d a) : a = d := by
  rcases h with h | h
  · exact h
  · exact absurd h' (hl.not_covers_of_above h)

/-- No more than one child of a node covers another node. -/
theorem eq_of_covers (ha : t.parent? a = some p) (hb : t.parent? b = some p)
    (had : t.Covers a d) (hbd : t.Covers b d) : a = b := by
  rcases had.total hbd with (h | h) | (h | h)
  · exact h
  · exact absurd ((above_iff_covers hb).mp h) (hl.not_covers_of_above (.single ha))
  · exact h.symm
  · exact absurd ((above_iff_covers ha).mp h) (hl.not_covers_of_above (.single hb))

theorem under_children : t.Under (t.children a) d ↔ t.Above a d := by
  constructor
  · rintro ⟨c, hc, h⟩
    exact Above.trans_covers (.single ((hl.mem_children a c).mp hc)) h
  · intro h
    obtain ⟨c, hc, h⟩ := Relation.TransGen.head'_iff.mp h
    refine ⟨c, (hl.mem_children a c).mpr hc, ?_⟩
    rcases (Relation.reflTransGen_iff_eq_or_transGen).mp h with rfl | h
    · exact .refl t _
    · exact .inr h

/-- What a child of a node covers, none of the others covers. -/
theorem not_under_of_covers {ids : List NodeId} (hids : ∀ id ∈ b :: ids, t.parent? id = some p)
    (hnodup : (b :: ids).Nodup) (h : t.Covers b d) : ¬ t.Under ids d := by
  rintro ⟨c, hc, hcd⟩
  have heq := hl.eq_of_covers (hids b List.mem_cons_self) (hids c (.tail _ hc)) h hcd
  rw [heq] at hnodup
  exact (List.nodup_cons.mp hnodup).1 hc

/-- A text covers nothing but itself. -/
theorem covers_text {s : String} (htext : t.text? a = some s) : t.Covers a d ↔ a = d := by
  rw [Covers, ← hl.under_children, hl.text_leaf a s htext]
  exact or_iff_left not_under_nil

theorem mem_cons_ancestors : a ∈ d :: t.ancestors d ↔ t.Covers a d := by
  rw [List.mem_cons, hl.mem_ancestors, Covers]

end Linked

/-! ## Outermost nodes -/

/-- Of what `M` holds of, the node is among the nodes or below them, and none of that is above it. -/
structure Outermost (t : Tree) (M : NodeId → Prop) (ids : List NodeId) (d : NodeId) : Prop where
  under : t.Under ids d
  holds : M d
  first : ∀ a, t.Under ids a → t.Above a d → ¬ M a

/-- The outermost node that was created last. -/
structure Last (t : Tree) (M : NodeId → Prop) (ids : List NodeId) (d : NodeId) : Prop where
  outermost : t.Outermost M ids d
  last : ∀ d', t.Outermost M ids d' → d'.index ≤ d.index

section Outermost

variable {M : NodeId → Prop} {ids ids' : List NodeId} {id : NodeId}

theorem Last.unique (h : t.Last M ids d) (h' : t.Last M ids b) : d = b :=
  congrArg NodeId.mk (Nat.le_antisymm (h'.last _ h.outermost) (h.last _ h'.outermost))

theorem last_congr (h : ∀ x, t.Outermost M ids x ↔ t.Outermost M ids' x) :
    t.Last M ids d ↔ t.Last M ids' d :=
  ⟨fun hd => ⟨(h d).mp hd.outermost, fun x hx => hd.last x ((h x).mpr hx)⟩,
    fun hd => ⟨(h d).mpr hd.outermost, fun x hx => hd.last x ((h x).mp hx)⟩⟩

namespace Linked

variable (hl : t.Linked)
include hl

/-- Beside each other nodes do not matter to each other. -/
theorem outermost_cons (hids : ∀ x ∈ id :: ids, t.parent? x = some p) (hnodup : (id :: ids).Nodup) :
    t.Outermost M (id :: ids) d ↔ t.Outermost M [id] d ∨ t.Outermost M ids d := by
  constructor
  · rintro ⟨hunder, hd, hfirst⟩
    rcases under_cons.mp hunder with h | h
    · refine .inl ⟨under_singleton.mpr h, hd, fun a ha => hfirst a (under_cons.mpr (.inl ?_))⟩
      exact under_singleton.mp ha
    · exact .inr ⟨h, hd, fun a ha => hfirst a (under_cons.mpr (.inr ha))⟩
  · rintro (⟨hunder, hd, hfirst⟩ | ⟨hunder, hd, hfirst⟩)
    · have hid := under_singleton.mp hunder
      refine ⟨under_cons.mpr (.inl hid), hd, fun a ha had => ?_⟩
      rcases under_cons.mp ha with h | ⟨b, hb, hba⟩
      · exact hfirst a (under_singleton.mpr h) had
      · exact absurd ⟨b, hb, hba.trans (.inr had)⟩ (hl.not_under_of_covers hids hnodup hid)
    · refine ⟨under_cons.mpr (.inr hunder), hd, fun a ha had => ?_⟩
      rcases under_cons.mp ha with h | h
      · exact absurd hunder (hl.not_under_of_covers hids hnodup (h.trans (.inr had)))
      · exact hfirst a h had

theorem outermost_self (hid : M id) : t.Outermost M [id] d ↔ d = id := by
  constructor
  · rintro ⟨hunder, -, hfirst⟩
    rcases under_singleton.mp hunder with rfl | h
    · rfl
    · exact absurd hid (hfirst id (under_singleton.mpr (.refl t id)) h)
  · rintro rfl
    refine ⟨under_singleton.mpr (.refl t d), hid, fun a ha had => ?_⟩
    exact absurd (under_singleton.mp ha) (hl.not_covers_of_above had)

theorem outermost_children (hid : ¬ M id) :
    t.Outermost M [id] d ↔ t.Outermost M (t.children id) d := by
  constructor
  · rintro ⟨hunder, hd, hfirst⟩
    refine ⟨?_, hd, fun a ha => hfirst a (under_singleton.mpr (.inr (hl.under_children.mp ha)))⟩
    rcases under_singleton.mp hunder with rfl | h
    · exact absurd hd hid
    · exact hl.under_children.mpr h
  · rintro ⟨hunder, hd, hfirst⟩
    refine ⟨under_singleton.mpr (.inr (hl.under_children.mp hunder)), hd, fun a ha had => ?_⟩
    rcases under_singleton.mp ha with rfl | h
    · exact hid
    · exact hfirst a (hl.under_children.mpr h) had

/-- Each node that `M` holds of is covered by one that is outermost. -/
theorem exists_outermost (hd : M d) (hunder : t.Under ids d) :
    ∃ a, t.Outermost M ids a ∧ t.Covers a d := by
  induction d using hl.wellFounded_above.induction with
  | _ d ih =>
    by_cases hfirst : ∀ a, t.Under ids a → t.Above a d → ¬ M a
    · exact ⟨d, ⟨hunder, hd, hfirst⟩, .refl t d⟩
    · push Not at hfirst
      obtain ⟨a, ha, had, hM⟩ := hfirst
      obtain ⟨b, hb, hba⟩ := ih a had hM ha
      exact ⟨b, hb, hba.trans (.inr had)⟩

end Linked

/-- Of outermost nodes that are known one is the last. -/
theorem Outermost.exists_last (h : t.Outermost M ids d) (hknown : ∀ x, M x → x.index < t.size) :
    ∃ d, t.Last M ids d := by
  induction hn : t.size - d.index using Nat.strongRecOn generalizing d with
  | _ n ih =>
    by_cases hlast : ∀ d', t.Outermost M ids d' → d'.index ≤ d.index
    · exact ⟨d, h, hlast⟩
    · push Not at hlast
      obtain ⟨d', hd', hlt⟩ := hlast
      have hlt' := hknown d' hd'.holds
      exact ih (t.size - d'.index) (by omega) hd' rfl

end Outermost

end Hypertext.Tree
