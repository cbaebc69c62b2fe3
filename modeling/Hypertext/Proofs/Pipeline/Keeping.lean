/-
Rules that take out all but what their selectors match. Such a rule keeps one
match in mind and the path that led to it from the scope. What it drops can be
told of the finished document all the same (`ElementRule.Drops`), also where
other rules cut elements from under it as they start.

A tour of what is below a node meets the rule in one of three states: in no
scope, in a scope but inside no match, or inside a match (`At`). It leaves the
rule as it was, but for the path, which now leads to the last outermost match
if there was one (`Leaves`).
-/
import Hypertext.Proofs.Pipeline.Crew

namespace Hypertext.Pipeline

open Markup Selector

/-! ## What is dropped -/

namespace ElementRule

/-- The selectors match the node, an element that `S` holds of. -/
def Matches (r : ElementRule) (T : Tree) (S : NodeId → Prop) (x : NodeId) : Prop :=
  S x ∧ Picks T r.selectors x

instance (r : ElementRule) (T : Tree) (S : NodeId → Prop) [DecidablePred S] :
    DecidablePred (r.Matches T S) :=
  fun _ => inferInstanceAs (Decidable (_ ∧ _))

/-- The element opens a scope and is in none. -/
structure Roots (r : ElementRule) (T : Tree) (S : NodeId → Prop) (s : NodeId) : Prop where
  started : S s
  opens : r.Opens T s
  first : ∀ a, T.Above a s → S a → ¬ r.Opens T a

/-- The node is below the root of a scope, and from the root down to the node nothing matches. -/
def Exposed (r : ElementRule) (T : Tree) (S : NodeId → Prop) (x : NodeId) : Prop :=
  ∃ s, r.Roots T S s ∧ T.Above s x ∧ ∀ a, T.Covers s a → T.Covers a x → ¬ r.Matches T S a

/-- There are matches below the element, and nothing is cut on the way to the last outermost one. -/
def Guards (r : ElementRule) (T : Tree) (S : NodeId → Prop) (cut : NodeId → Bool) (x : NodeId) : Prop :=
  ∃ d, T.Last (r.Matches T S) (T.children x) d ∧
    ∀ c, T.Above x c → T.Covers c d → cut c = false

/-- The rule takes out the node: a text, or an element that leads to no match it has in mind. -/
def Drops (r : ElementRule) (T : Tree) (S : NodeId → Prop) (cut : NodeId → Bool) (x : NodeId) : Prop :=
  r.Exposed T S x ∧ ((T.text? x).isSome = true ∨ S x ∧ ¬ r.Guards T S cut x)

/-- Left to itself the rule takes out the node: nothing from the root of its scope down to it
matches, and if it is an element, nothing below it either. -/
def Discards (r : ElementRule) (T : Tree) (S : NodeId → Prop) (x : NodeId) : Prop :=
  r.Exposed T S x ∧
    ((T.text? x).isSome = true ∨ S x ∧ ∀ d, T.Above x d → ¬ r.Matches T S d)

/-- The rule takes an event after others have cut the node, if it starts and is one to be cut. -/
def attend (r : ElementRule) (cut : NodeId → Bool) (event : Event) (s : Tree × Focus) : Tree × Focus :=
  let t := s.1.cut event.node (decide (event.kind = .elementStarted) && cut event.node)
  let (out, focus) := r.verdict event t s.2
  (t.cut event.node out, focus)

/-- The rule takes events one after the other. -/
def attendAll (r : ElementRule) (cut : NodeId → Bool) (events : List Event) (s : Tree × Focus) :
    Tree × Focus :=
  events.foldl (fun s event => r.attend cut event s) s

variable {r : ElementRule} {T t : Tree} {S : NodeId → Prop} {cut : NodeId → Bool} {f f' : Focus}
  {s s' k x p id : NodeId} {path : List NodeId}

/-- A node is in no more than one scope. -/
theorem Roots.unique (h : r.Roots T S s) (h' : r.Roots T S s') (hs : T.Covers s x)
    (hs' : T.Covers s' x) : s = s' := by
  rcases hs.total hs' with (heq | habove) | (heq | habove)
  · exact heq
  · exact absurd h.opens (h'.first s habove h.started)
  · exact heq.symm
  · exact absurd h'.opens (h.first s' habove h'.started)

theorem Matches.isElement (h : r.Matches T S x) : T.isElement x = true :=
  picks_isElement h.2

/-! ## Single events -/

theorem attend_started (f : Focus) : r.attend cut ⟨.elementStarted, id⟩ (t, f) =
    let t' := t.cut id (cut id)
    let (out, focus) := r.verdict ⟨.elementStarted, id⟩ t' f
    (t'.cut id out, focus) := by
  simp [attend]

theorem attend_ended_idle : r.attend cut ⟨.elementEnded, id⟩ (t, {}) = (t, {}) := by
  simp [attend, verdict, Tree.cut]

theorem attend_ended_scope (hscope : f.scope = some id) :
    r.attend cut ⟨.elementEnded, id⟩ (t, f) = (t, {}) := by
  simp [attend, verdict, hscope, Tree.cut]

section Events

variable (haction : r.action = .removeOthers)
include haction

theorem attend_text (f : Focus) : r.attend cut ⟨.textCreated, id⟩ (t, f) =
    (t.cut id (decide (f.scope ≠ none ∧ f.kept = none)), f) := by
  simp [attend, verdict, haction, Tree.cut]

theorem attend_started_idle : r.attend cut ⟨.elementStarted, id⟩ (t, {}) =
    let t' := t.cut id (cut id)
    (t', if r.Opens t' id then
      if Picks t' r.selectors id then ⟨some id, some id, (t'.ancestors id).takeWhile (· ≠ id)⟩
      else ⟨some id, none, []⟩
    else {}) := by
  rw [attend_started]
  generalize t.cut id (cut id) = t'
  by_cases hopens : r.Opens t' id
  · by_cases hpicks : Picks t' r.selectors id <;>
      simp [verdict, entered, haction, hopens, hpicks, Tree.cut]
  · simp [verdict, entered, hopens, Tree.cut]

theorem attend_started_open : r.attend cut ⟨.elementStarted, id⟩ (t, ⟨some s, none, path⟩) =
    let t' := t.cut id (cut id)
    (t', if Picks t' r.selectors id then
      ⟨some s, some id, (t'.ancestors id).takeWhile (· ≠ s)⟩ else ⟨some s, none, path⟩) := by
  rw [attend_started]
  generalize t.cut id (cut id) = t'
  by_cases hpicks : Picks t' r.selectors id <;> simp [verdict, entered, haction, hpicks, Tree.cut]

theorem attend_started_kept : r.attend cut ⟨.elementStarted, id⟩ (t, ⟨some s, some k, path⟩) =
    (t.cut id (cut id), ⟨some s, some k, path⟩) := by
  rw [attend_started]
  simp [verdict, entered, haction, Tree.cut]

theorem attend_ended_open (hne : s ≠ id) :
    r.attend cut ⟨.elementEnded, id⟩ (t, ⟨some s, none, path⟩) =
      (t.cut id (decide (id ∉ path)), ⟨some s, none, path⟩) := by
  simp [attend, verdict, haction, hne, Tree.cut]

theorem attend_ended_kept (hne : s ≠ id) :
    r.attend cut ⟨.elementEnded, id⟩ (t, ⟨some s, some k, path⟩) =
      (t, ⟨some s, if k = id then none else some k, path⟩) := by
  by_cases hk : k = id <;> simp [attend, verdict, haction, hne, hk, Tree.cut]

end Events

/-! ## States -/

/-- The state of the rule at the children `ids` of `p`, before it is told of them. -/
inductive At (r : ElementRule) (T : Tree) (S : NodeId → Prop) (p : NodeId) (ids : List NodeId) :
    Focus → Prop where
  | idle : (∀ a, T.Covers a p → S a → ¬ r.Opens T a) → At r T S p ids {}
  | open {s : NodeId} {path : List NodeId} : r.Roots T S s → T.Covers s p →
    (∀ a, T.Covers s a → T.Covers a p → ¬ r.Matches T S a) → (∀ y ∈ path, ¬ T.Under ids y) →
    At r T S p ids ⟨some s, none, path⟩
  | kept {s k : NodeId} {path : List NodeId} : r.Roots T S s → T.Covers s k → T.Covers k p → r.Matches T S k →
    At r T S p ids ⟨some s, some k, path⟩

/-- What is left of the way from the root of a scope down to a match when it starts. -/
def OnWay (T : Tree) (cut : NodeId → Bool) (s d y : NodeId) : Prop :=
  T.Above s y ∧ T.Above y d ∧ ∀ c, T.Above y c → T.Covers c d → cut c = false

/-- The state of the rule after it has been told of the nodes and of what is below them. -/
inductive Leaves (r : ElementRule) (T : Tree) (S : NodeId → Prop) (cut : NodeId → Bool)
    (ids : List NodeId) : Focus → Focus → Prop where
  | idle : Leaves r T S cut ids {} {}
  | kept {s k : NodeId} {path : List NodeId} : Leaves r T S cut ids ⟨some s, some k, path⟩ ⟨some s, some k, path⟩
  | none {s : NodeId} {path : List NodeId} : (∀ d, T.Under ids d → ¬ r.Matches T S d) →
    Leaves r T S cut ids ⟨some s, none, path⟩ ⟨some s, none, path⟩
  | found {s d : NodeId} {path path' : List NodeId} : T.Last (r.Matches T S) ids d →
    (∀ y, y ∈ path' ↔ OnWay T cut s d y) →
    Leaves r T S cut ids ⟨some s, none, path⟩ ⟨some s, none, path'⟩

/-- In this state the rule gets through the element: when it starts the rule is ready for what is
inside, and whatever it has found there, at the end it takes the element out if it has to. -/
def Passes (r : ElementRule) (T : Tree) (S : NodeId → Prop) (cut : NodeId → Bool) (t : Tree)
    (id : NodeId) (f : Focus) : Prop :=
  ∃ f₁, r.attend cut ⟨.elementStarted, id⟩ (t, f) = (t.cut id (cut id), f₁) ∧
    r.At T S id (T.children id) f₁ ∧
    ∀ u f₂, Leaves r T S cut (T.children id) f₁ f₂ →
      ∃ out f', r.attend cut ⟨.elementEnded, id⟩ (u, f₂) = (u.cut id out, f') ∧
        (out = true ↔ r.Drops T S cut id) ∧ Leaves r T S cut [id] f f'

/-- The selectors find the same in the whole tree as where exactly those have been taken out, of
what covers the node, that are to be cut. -/
def Steady (r : ElementRule) (T : Tree) (cut : NodeId → Bool) : Prop :=
  ∀ gone t x, Tree.Pruned gone T t → (∀ a, T.Covers a x → (a ∈ gone ↔ cut a = true)) →
    (Picks t r.selectors x ↔ Picks T r.selectors x) ∧ (r.Opens t x ↔ r.Opens T x)

section States

variable {gone : List NodeId} {t' : Tree} {ids : List NodeId}

theorem drops_iff (helement : T.isElement id = true) :
    r.Drops T S cut id ↔ r.Exposed T S id ∧ S id ∧ ¬ r.Guards T S cut id := by
  have htext : T.text? id = none :=
    Option.eq_none_iff_forall_not_mem.mpr fun _ h => Tree.not_isElement_of_text? h helement
  simp [Drops, htext]

theorem not_exposed_of_idle (hp : T.parent? id = some p)
    (hidle : ∀ a, T.Covers a p → S a → ¬ r.Opens T a) : ¬ r.Exposed T S id := by
  rintro ⟨s, hs, habove, -⟩
  exact hidle s ((Tree.above_iff_covers hp).mp habove) hs.started hs.opens

theorem exposed_iff (hp : T.parent? id = some p) (hs : r.Roots T S s) (hsp : T.Covers s p)
    (hfree : ∀ a, T.Covers s a → T.Covers a p → ¬ r.Matches T S a) :
    r.Exposed T S id ↔ ¬ r.Matches T S id := by
  have habove := (Tree.above_iff_covers hp).mpr hsp
  constructor
  · rintro ⟨s', hs', habove', hfree'⟩
    obtain rfl := hs.unique hs' (.inr habove) (.inr habove')
    exact hfree' id (.inr habove') (.refl T id)
  · refine fun hid => ⟨s, hs, habove, fun a hsa ha => ?_⟩
    rcases (Tree.covers_iff hp).mp ha with rfl | ha
    · exact hid
    · exact hfree a hsa ha

theorem not_exposed_of_kept (hp : T.parent? id = some p) (hs : r.Roots T S s) (hsk : T.Covers s k)
    (hkp : T.Covers k p) (hk : r.Matches T S k) : ¬ r.Exposed T S id := by
  rintro ⟨s', hs', habove', hfree'⟩
  have hkid := (Tree.above_iff_covers hp).mpr hkp
  obtain rfl := hs.unique hs' (.inr (hsk.above hkid)) (.inr habove')
  exact hfree' k hsk (.inr hkid) hk

/-- The path that is written down where an element starts. -/
theorem mem_path (hl : T.Linked) (hpruned : Tree.Pruned gone T t)
    (hline : ∀ a, T.Covers a id → (a ∈ gone ↔ cut a = true)) (habove : T.Above s id) {y : NodeId} :
    y ∈ (t.ancestors id).takeWhile (· ≠ s) ↔ OnWay T cut s id y := by
  rw [hpruned.mem_takeWhile_ancestors hl habove, hpruned.above_iff hl, OnWay]
  refine and_congr_right fun _ => and_congr_right fun _ => ?_
  refine forall_congr' fun c => imp_congr_right fun _ => imp_congr_right fun hc => ?_
  rw [hline c hc, Bool.not_eq_true]

/-- An element that starts and ends while the rule is in no scope. -/
theorem passes_idle (hl : T.Linked) (haction : r.action = .removeOthers)
    (hp : T.parent? id = some p) (hS : S id)
    (hpicks : Picks (t.cut id (cut id)) r.selectors id ↔ Picks T r.selectors id)
    (hopens : r.Opens (t.cut id (cut id)) id ↔ r.Opens T id)
    (hidle : ∀ a, T.Covers a p → S a → ¬ r.Opens T a) :
    r.Passes T S cut t id {} := by
  have hstays : ¬ r.Drops T S cut id := fun h => not_exposed_of_idle hp hidle h.1
  have hended : ∀ (u : Tree) (f₂ : Focus), f₂.scope = some id ∨ f₂ = {} →
      ∃ out f', r.attend cut ⟨.elementEnded, id⟩ (u, f₂) = (u.cut id out, f') ∧
        (out = true ↔ r.Drops T S cut id) ∧ Leaves r T S cut [id] {} f' := by
    intro u f₂ hf₂
    refine ⟨false, {}, ?_, iff_of_false (by simp) hstays, .idle⟩
    rcases hf₂ with hscope | rfl
    · exact attend_ended_scope hscope
    · exact attend_ended_idle
  have hroots : r.Opens T id → r.Roots T S id := fun ho =>
    ⟨hS, ho, fun a ha => hidle a ((Tree.above_iff_covers hp).mp ha)⟩
  have hself := Tree.Covers.refl T id
  rw [Passes, attend_started_idle haction]
  simp only [hpicks, hopens]
  by_cases ho : r.Opens T id
  · by_cases hid : Picks T r.selectors id
    · rw [if_pos ho, if_pos hid]
      refine ⟨_, rfl, .kept (hroots ho) hself hself ⟨hS, hid⟩, fun u f₂ hleaves => hended u f₂ ?_⟩
      cases hleaves
      exact .inl rfl
    · rw [if_pos ho, if_neg hid]
      refine ⟨_, rfl, .open (hroots ho) hself ?_ (by simp), fun u f₂ hleaves => hended u f₂ ?_⟩
      · intro a ha ha' hmatches
        rw [hl.covers_antisymm ha' ha] at hmatches
        exact hid hmatches.2
      · cases hleaves <;> exact .inl rfl
  · rw [if_neg ho]
    refine ⟨_, rfl, .idle fun a ha hSa => ?_, fun u f₂ hleaves => hended u f₂ ?_⟩
    · rcases (Tree.covers_iff hp).mp ha with rfl | ha
      · exact ho
      · exact hidle a ha hSa
    · cases hleaves
      exact .inr rfl

/-- An element that starts and ends in a scope, but inside no match. -/
theorem passes_open (hl : T.Linked) (haction : r.action = .removeOthers)
    (hp : T.parent? id = some p) (helement : T.isElement id = true) (hS : S id)
    (hpruned : Tree.Pruned gone T (t.cut id (cut id)))
    (hline : ∀ a, T.Covers a id → (a ∈ gone ↔ cut a = true))
    (hpicks : Picks (t.cut id (cut id)) r.selectors id ↔ Picks T r.selectors id)
    (hs : r.Roots T S s) (hsp : T.Covers s p)
    (hfree : ∀ a, T.Covers s a → T.Covers a p → ¬ r.Matches T S a) (hpath : ∀ y ∈ path, ¬ T.Under [id] y) :
    r.Passes T S cut t id ⟨some s, none, path⟩ := by
  have habove := (Tree.above_iff_covers hp).mpr hsp
  have hne : s ≠ id := fun heq => hl.acyclic id (heq ▸ habove)
  have hself : T.Under [id] id := Tree.under_singleton.mpr (.refl T id)
  rw [Passes, attend_started_open haction]
  simp only [hpicks]
  rw [drops_iff helement, exposed_iff hp hs hsp hfree, and_iff_right hS]
  by_cases hid : Picks T r.selectors id
  · have hmatches : r.Matches T S id := ⟨hS, hid⟩
    rw [if_pos hid]
    refine ⟨_, rfl, .kept hs (.inr habove) (.refl T id) hmatches, fun u f₂ hleaves => ?_⟩
    cases hleaves
    refine ⟨false, _, attend_ended_kept haction hne, ?_, ?_⟩
    · exact iff_of_false (by simp) fun h => h.1 hmatches
    · rw [if_pos rfl]
      have hlast : T.Last (r.Matches T S) [id] id := by
        refine ⟨(hl.outermost_self hmatches).mpr rfl, fun d hd => ?_⟩
        rw [(hl.outermost_self hmatches).mp hd]
      exact .found hlast fun y => mem_path hl hpruned hline habove
  · have hmatches : ¬ r.Matches T S id := fun h => hid h.2
    rw [if_neg hid]
    refine ⟨_, rfl, .open hs (.inr habove) ?_ ?_, fun u f₂ hleaves => ?_⟩
    · intro a hsa ha
      rcases (Tree.covers_iff hp).mp ha with rfl | ha
      · exact hmatches
      · exact hfree a hsa ha
    · exact fun y hy hunder =>
        hpath y hy (Tree.under_singleton.mpr (.inr (hl.under_children.mp hunder)))
    · cases hleaves with
      | none hnone =>
        refine ⟨_, _, attend_ended_open haction hne, ?_, .none fun d hd => ?_⟩
        · have hguards : ¬ r.Guards T S cut id := fun ⟨d, hd, _⟩ =>
            hnone d hd.outermost.under hd.outermost.holds
          simp only [decide_eq_true_eq, hmatches, hguards, not_false_eq_true, and_self, iff_true]
          exact fun hmem => hpath id hmem hself
        · rcases Tree.under_singleton.mp hd with rfl | hd
          · exact hmatches
          · exact hnone d (hl.under_children.mpr hd)
      | @found _ d _ path' hlast hpath' =>
        refine ⟨_, _, attend_ended_open haction hne, ?_, .found ?_ hpath'⟩
        · have hguards : r.Guards T S cut id ↔ id ∈ path' := by
            rw [hpath', OnWay]
            constructor
            · rintro ⟨d', hd', hway⟩
              rw [hd'.unique hlast] at hway
              exact ⟨habove, hl.under_children.mp hlast.outermost.under, hway⟩
            · exact fun h => ⟨d, hlast, h.2.2⟩
          simp [hmatches, hguards]
        · exact (Tree.last_congr fun x => hl.outermost_children hmatches).mpr hlast

/-- An element that starts and ends inside a match. -/
theorem passes_kept (hl : T.Linked) (haction : r.action = .removeOthers)
    (hp : T.parent? id = some p) (hs : r.Roots T S s) (hsk : T.Covers s k) (hkp : T.Covers k p)
    (hk : r.Matches T S k) :
    r.Passes T S cut t id ⟨some s, some k, path⟩ := by
  have hkid := (Tree.above_iff_covers hp).mpr hkp
  have hne : ∀ {a}, T.Covers a k → a ≠ id := by
    rintro a ha rfl
    exact hl.acyclic a (ha.above hkid)
  refine ⟨_, attend_started_kept haction, .kept hs hsk (.inr hkid) hk, fun u f₂ hleaves => ?_⟩
  cases hleaves
  refine ⟨false, _, attend_ended_kept haction (hne hsk), ?_, ?_⟩
  · exact iff_of_false (by simp) fun h => not_exposed_of_kept hp hs hsk hkp hk h.1
  · rw [if_neg (hne (.refl T k))]
    exact .kept

theorem At.passes (h : r.At T S p [id] f) (hl : T.Linked) (haction : r.action = .removeOthers)
    (hsteady : r.Steady T cut) (hp : T.parent? id = some p) (helement : T.isElement id = true)
    (hS : S id) (hpruned : Tree.Pruned gone T (t.cut id (cut id)))
    (hline : ∀ a, T.Covers a id → (a ∈ gone ↔ cut a = true)) : r.Passes T S cut t id f := by
  obtain ⟨hpicks, hopens⟩ := hsteady _ _ _ hpruned hline
  cases h with
  | idle hidle => exact passes_idle hl haction hp hS hpicks hopens hidle
  | «open» hs hsp hfree hpath =>
    exact passes_open hl haction hp helement hS hpruned hline hpicks hs hsp hfree hpath
  | kept hs hsk hkp hk => exact passes_kept hl haction hp hs hsk hkp hk

/-- The rule gets past a text. -/
theorem At.text (h : r.At T S p [id] f) (hl : T.Linked) (haction : r.action = .removeOthers)
    (hp : T.parent? id = some p) {content : String} (htext : T.text? id = some content) (cut : NodeId → Bool)
    (t : Tree) :
    ∃ out, r.attend cut ⟨.textCreated, id⟩ (t, f) = (t.cut id out, f) ∧
      (out = true ↔ r.Drops T S cut id) ∧ Leaves r T S cut [id] f f := by
  have hmatches : ¬ r.Matches T S id := fun h => Tree.not_isElement_of_text? htext h.isElement
  have hdrops : r.Drops T S cut id ↔ r.Exposed T S id := by simp [Drops, htext]
  rw [attend_text haction]
  refine ⟨_, rfl, ?_⟩
  rw [hdrops]
  cases h with
  | idle hidle => exact ⟨iff_of_false (by simp) (not_exposed_of_idle hp hidle), .idle⟩
  | «open» hs hsp hfree hpath =>
    refine ⟨iff_of_true (by simp) ((exposed_iff hp hs hsp hfree).mpr hmatches), .none fun d hd => ?_⟩
    rw [Tree.under_singleton, hl.covers_text htext] at hd
    exact hd ▸ hmatches
  | kept hs hsk hkp hk =>
    exact ⟨iff_of_false (by simp) (not_exposed_of_kept hp hs hsk hkp hk), .kept⟩

/-- What holds at an element that no rule is told of holds inside it. -/
theorem At.wrapper (h : r.At T S p [id] f) (hl : T.Linked) (hp : T.parent? id = some p)
    (hsilent : ¬ S id) : r.At T S id (T.children id) f := by
  cases h with
  | idle hidle =>
    refine .idle fun a ha hS => ?_
    rcases (Tree.covers_iff hp).mp ha with rfl | ha
    · exact absurd hS hsilent
    · exact hidle a ha hS
  | «open» hs hsp hfree hpath =>
    refine .open hs (.inr ((Tree.above_iff_covers hp).mpr hsp)) (fun a hsa ha => ?_) fun y hy hunder => ?_
    · rcases (Tree.covers_iff hp).mp ha with rfl | ha
      · exact fun h => hsilent h.1
      · exact hfree a hsa ha
    · exact hpath y hy (Tree.under_singleton.mpr (.inr (hl.under_children.mp hunder)))
  | kept hs hsk hkp hk => exact .kept hs hsk (.inr ((Tree.above_iff_covers hp).mpr hkp)) hk

theorem Leaves.wrapper (h : Leaves r T S cut (T.children id) f f') (hl : T.Linked)
    (hsilent : ¬ S id) : Leaves r T S cut [id] f f' := by
  have hmatches : ¬ r.Matches T S id := fun h => hsilent h.1
  cases h with
  | idle => exact .idle
  | kept => exact .kept
  | none hnone =>
    refine .none fun d hd => ?_
    rcases Tree.under_singleton.mp hd with rfl | hd
    · exact hmatches
    · exact hnone d (hl.under_children.mpr hd)
  | found hlast hpath =>
    exact .found ((Tree.last_congr fun x => hl.outermost_children hmatches).mpr hlast) hpath

/-- The first of some nodes is the only one that the rule is told of for now. -/
theorem At.head (h : r.At T S p (id :: ids) f) : r.At T S p [id] f := by
  cases h with
  | idle hidle => exact .idle hidle
  | «open» hs hsp hfree hpath =>
    exact .open hs hsp hfree fun y hy hunder =>
      hpath y hy (Tree.under_cons.mpr (.inl (Tree.under_singleton.mp hunder)))
  | kept hs hsk hkp hk => exact .kept hs hsk hkp hk

/-- The rule goes on to the next node. -/
theorem At.tail (h : r.At T S p (id :: ids) f) (hl : T.Linked)
    (hids : ∀ x ∈ id :: ids, T.parent? x = some p) (hnodup : (id :: ids).Nodup)
    (hleaves : Leaves r T S cut [id] f f') : r.At T S p ids f' := by
  cases hleaves with
  | idle =>
    cases h with
    | idle hidle => exact .idle hidle
  | kept =>
    cases h with
    | kept hs hsk hkp hk => exact .kept hs hsk hkp hk
  | none =>
    cases h with
    | «open» hs hsp hfree hpath =>
      exact .open hs hsp hfree fun y hy hunder => hpath y hy (Tree.under_cons.mpr (.inr hunder))
  | found hlast hpath' =>
    cases h with
    | «open» hs hsp hfree hpath =>
      refine .open hs hsp hfree fun y hy ⟨b, hb, hby⟩ => ?_
      have hyd := ((hpath' y).mp hy).2.1
      exact hl.not_under_of_covers hids hnodup (Tree.under_singleton.mp hlast.outermost.under)
        ⟨b, hb, hby.trans (.inr hyd)⟩

theorem Leaves.cons (hl : T.Linked) (hids : ∀ x ∈ id :: ids, T.parent? x = some p)
    (hnodup : (id :: ids).Nodup)
    (hbefore : ∀ x y, T.Under [id] x → T.Under ids y → r.Matches T S x → r.Matches T S y →
      x.index < y.index)
    {f₁ : Focus} (h : Leaves r T S cut [id] f f₁) (h' : Leaves r T S cut ids f₁ f') :
    Leaves r T S cut (id :: ids) f f' := by
  have hsplit := fun {d} => hl.outermost_cons (M := r.Matches T S) (d := d) hids hnodup
  have hnothing : ∀ {ids d}, (∀ x, T.Under ids x → ¬ r.Matches T S x) →
      ¬ T.Outermost (r.Matches T S) ids d := fun hnone hd => hnone _ hd.under hd.holds
  cases h with
  | idle =>
    cases h' with
    | idle => exact .idle
  | kept =>
    cases h' with
    | kept => exact .kept
  | none hnone =>
    cases h' with
    | none hnone' =>
      refine .none fun d hd => ?_
      rcases Tree.under_cons.mp hd with hd | hd
      · exact hnone d (Tree.under_singleton.mpr hd)
      · exact hnone' d hd
    | found hlast hpath =>
      refine .found ((Tree.last_congr fun x => ?_).mpr hlast) hpath
      rw [hsplit, or_iff_right (hnothing hnone)]
  | found hlast hpath =>
    cases h' with
    | none hnone' =>
      refine .found ((Tree.last_congr fun x => ?_).mpr hlast) hpath
      rw [hsplit, or_iff_left (hnothing hnone')]
    | found hlast' hpath' =>
      refine .found ⟨hsplit.mpr (.inr hlast'.outermost), fun d' hd' => ?_⟩ hpath'
      rcases hsplit.mp hd' with hd' | hd'
      · exact Nat.le_of_lt (hbefore _ _ hd'.under hlast'.outermost.under hd'.holds
          hlast'.outermost.holds)
      · exact hlast'.last d' hd'

end States

/-! ## Tours -/

/-- The node is cut by others or taken out by the rule. -/
def Loses (r : ElementRule) (T : Tree) (S : NodeId → Prop) (cut : NodeId → Bool) (x : NodeId) : Prop :=
  cut x = true ∨ r.Drops T S cut x

/-- Before a tour of the children `ids` of `p`: of what covers them, that is gone which is to be
cut, and nothing of them is gone yet. -/
structure Ready (T : Tree) (cut : NodeId → Bool) (p : NodeId) (ids gone : List NodeId) (t : Tree) :
    Prop where
  pruned : Tree.Pruned gone T t
  line : ∀ a, T.Covers a p → (a ∈ gone ↔ cut a = true)
  fresh : ∀ x, T.Under ids x → x ∉ gone

/-- Told of the events, the rule and those that cut take out what is to be lost of the nodes and of
what is below them, and nothing else. -/
def Keeps (r : ElementRule) (T : Tree) (S : NodeId → Prop) (cut : NodeId → Bool) (p : NodeId)
    (ids : List NodeId) (events : List Event) : Prop :=
  ∀ t gone f, Ready T cut p ids gone t → r.At T S p ids f →
    ∃ t' gone' f', r.attendAll cut events (t, f) = (t', f') ∧ Tree.Pruned gone' T t' ∧
      (∀ x, x ∈ gone' ↔ x ∈ gone ∨ T.Under ids x ∧ r.Loses T S cut x) ∧ Leaves r T S cut ids f f'

section Tours

variable {gone ids : List NodeId} {events later inside : List Event} {out : Bool}

theorem mem_gone_cut : x ∈ (if out then id :: gone else gone) ↔ x ∈ gone ∨ x = id ∧ out = true := by
  cases out with
  | false => simp
  | true => simp [or_comm]

theorem attendAll_cons (event : Event) (s : Tree × Focus) :
    r.attendAll cut (event :: events) s = r.attendAll cut events (r.attend cut event s) := rfl

theorem attendAll_append (s : Tree × Focus) :
    r.attendAll cut (events ++ later) s = r.attendAll cut later (r.attendAll cut events s) :=
  List.foldl_append

theorem Ready.start (h : Ready T cut p [id] gone t) (hl : T.Linked) (hp : T.parent? id = some p) :
    Ready T cut id (T.children id) (if cut id then id :: gone else gone) (t.cut id (cut id)) where
  pruned := h.pruned.cut hl id (cut id)
  line a ha := by
    rw [mem_gone_cut]
    rcases (Tree.covers_iff hp).mp ha with rfl | ha
    · have hfresh := h.fresh a (Tree.under_singleton.mpr (.refl T a))
      simp [hfresh]
    · have hne : a ≠ id := fun heq => hl.not_covers_of_above (.single hp) (heq ▸ ha)
      simp [h.line a ha, hne]
  fresh x hx := by
    have habove := hl.under_children.mp hx
    have hne : x ≠ id := fun heq => hl.acyclic id (heq ▸ habove)
    have hfresh := h.fresh x (Tree.under_singleton.mpr (.inr habove))
    simp [mem_gone_cut, hfresh, hne]

theorem Ready.wrapper (h : Ready T cut p [id] gone t) (hl : T.Linked) (hp : T.parent? id = some p)
    (hcut : cut id = false) : Ready T cut id (T.children id) gone t := by
  have hstart := h.start hl hp
  simpa [hcut, Tree.cut] using hstart

theorem keeps_nil : Keeps r T S cut p [] [] := by
  intro t gone f hready hat
  refine ⟨t, gone, f, rfl, hready.pruned, fun x => by simp [Tree.not_under_nil], ?_⟩
  cases hat with
  | idle => exact .idle
  | «open» => exact .none fun d hd => absurd hd Tree.not_under_nil
  | kept => exact .kept

theorem keeps_text (hl : T.Linked) (haction : r.action = .removeOthers) (hp : T.parent? id = some p)
    {content : String} (htext : T.text? id = some content) (hcut : cut id = false) :
    Keeps r T S cut p [id] [⟨.textCreated, id⟩] := by
  intro t gone f hready hat
  obtain ⟨out, hattend, hout, hleaves⟩ := hat.text hl haction hp htext cut t
  refine ⟨_, _, f, hattend, hready.pruned.cut hl id out, fun x => ?_, hleaves⟩
  have hunder : T.Under [id] x ↔ x = id := by
    rw [Tree.under_singleton, hl.covers_text htext, eq_comm]
  rw [mem_gone_cut, hunder, hout]
  refine or_congr_right (and_congr_right fun hx => ?_)
  rw [hx, Loses, hcut]
  simp

theorem Keeps.cons (hl : T.Linked) (hids : ∀ x ∈ id :: ids, T.parent? x = some p)
    (hnodup : (id :: ids).Nodup)
    (hbefore : ∀ x y, T.Under [id] x → T.Under ids y → r.Matches T S x → r.Matches T S y →
      x.index < y.index)
    (h : Keeps r T S cut p [id] events) (hrest : Keeps r T S cut p ids later) :
    Keeps r T S cut p (id :: ids) (events ++ later) := by
  intro t gone f hready hat
  have hfirst : ∀ {x}, T.Under [id] x → T.Under (id :: ids) x := fun hx =>
    Tree.under_cons.mpr (.inl (Tree.under_singleton.mp hx))
  obtain ⟨t₁, gone₁, f₁, hattend₁, hpruned₁, hgone₁, hleaves₁⟩ :=
    h t gone f ⟨hready.pruned, hready.line, fun x hx => hready.fresh x (hfirst hx)⟩ hat.head
  have hready₁ : Ready T cut p ids gone₁ t₁ := by
    refine ⟨hpruned₁, fun a ha => ?_, fun x hx hmem => ?_⟩
    · rw [hgone₁, ← hready.line a ha]
      refine or_iff_left fun ⟨hunder, _⟩ => ?_
      exact hl.not_covers_of_above (.single (hids id List.mem_cons_self))
        ((Tree.under_singleton.mp hunder).trans ha)
    · rcases (hgone₁ x).mp hmem with hmem | ⟨hunder, -⟩
      · exact hready.fresh x (Tree.under_cons.mpr (.inr hx)) hmem
      · exact hl.not_under_of_covers hids hnodup (Tree.under_singleton.mp hunder) hx
  obtain ⟨t₂, gone₂, f₂, hattend₂, hpruned₂, hgone₂, hleaves₂⟩ :=
    hrest t₁ gone₁ f₁ hready₁ (hat.tail hl hids hnodup hleaves₁)
  refine ⟨t₂, gone₂, f₂, ?_, hpruned₂, fun x => ?_,
    hleaves₁.cons hl hids hnodup hbefore hleaves₂⟩
  · rw [attendAll_append, hattend₁, hattend₂]
  · rw [hgone₂, hgone₁, Tree.under_singleton, Tree.under_cons, or_and_right, or_assoc]

theorem Keeps.wrapper (hl : T.Linked) (hp : T.parent? id = some p) (hsilent : ¬ S id)
    (helement : T.isElement id = true) (hcut : cut id = false)
    (h : Keeps r T S cut id (T.children id) inside) : Keeps r T S cut p [id] inside := by
  intro t gone f hready hat
  obtain ⟨t', gone', f', hattend, hpruned, hgone, hleaves⟩ :=
    h t gone f (hready.wrapper hl hp hcut) (hat.wrapper hl hp hsilent)
  refine ⟨t', gone', f', hattend, hpruned, fun x => ?_, hleaves.wrapper hl hsilent⟩
  have hself : ¬ r.Loses T S cut id := by
    simp [Loses, hcut, drops_iff helement, hsilent]
  rw [hgone, Tree.under_singleton, hl.under_children, Tree.Covers]
  refine or_congr_right ⟨fun hx => ⟨.inr hx.1, hx.2⟩, ?_⟩
  rintro ⟨rfl | hx, hloses⟩
  · exact absurd hloses hself
  · exact ⟨hx, hloses⟩

theorem Keeps.element (hl : T.Linked) (haction : r.action = .removeOthers)
    (hsteady : r.Steady T cut) (hp : T.parent? id = some p) (helement : T.isElement id = true)
    (hS : S id) (h : Keeps r T S cut id (T.children id) inside) :
    Keeps r T S cut p [id] (⟨.elementStarted, id⟩ :: inside ++ [⟨.elementEnded, id⟩]) := by
  intro t gone f hready hat
  have hstart := hready.start hl hp
  obtain ⟨f₁, hattend₁, hat₁, hended⟩ :=
    hat.passes hl haction hsteady hp helement hS hstart.pruned hstart.line
  obtain ⟨t₂, gone₂, f₂, hattend₂, hpruned₂, hgone₂, hleaves₂⟩ := h _ _ f₁ hstart hat₁
  obtain ⟨out, f', hattend₃, hout, hleaves⟩ := hended t₂ f₂ hleaves₂
  refine ⟨_, _, f', ?_, hpruned₂.cut hl id out, fun x => ?_, hleaves⟩
  · rw [List.cons_append, attendAll_cons, hattend₁, attendAll_append, hattend₂, attendAll_cons,
      hattend₃]
    rfl
  · rw [mem_gone_cut, hgone₂, mem_gone_cut, hout, Tree.under_singleton, hl.under_children,
      Tree.Covers, Loses]
    constructor
    · rintro (((hx | ⟨rfl, hx⟩) | ⟨hx, hloses⟩) | ⟨rfl, hx⟩)
      · exact .inl hx
      · exact .inr ⟨.inl rfl, .inl hx⟩
      · exact .inr ⟨.inr hx, hloses⟩
      · exact .inr ⟨.inl rfl, .inr hx⟩
    · rintro (hx | ⟨rfl | hx, hloses⟩)
      · exact .inl (.inl (.inl hx))
      · exact hloses.elim (fun hx => .inl (.inl (.inr ⟨rfl, hx⟩))) fun hx => .inr ⟨rfl, hx⟩
      · exact .inl (.inr ⟨hx, hloses⟩)

/-- Elements start in the order of their numbers. -/
def Ordered (events : List Event) : Prop :=
  events.Pairwise fun e e' => e.kind = .elementStarted → e'.kind = .elementStarted →
    e.node.index < e'.node.index

theorem Ordered.before (h : Ordered (events ++ later)) (hl : T.Linked) (htour : Tour T S [id] events)
    (hlater : Tour T S ids later) (x y : NodeId) (hx : T.Under [id] x) (hy : T.Under ids y)
    (hmatches : r.Matches T S x) (hmatches' : r.Matches T S y) : x.index < y.index := by
  have hstarted := (htour.mem_started hl).mpr ⟨hx, hmatches.1, hmatches.isElement⟩
  have hstarted' := (hlater.mem_started hl).mpr ⟨hy, hmatches'.1, hmatches'.isElement⟩
  exact (List.pairwise_append.mp h).2.2 _ hstarted _ hstarted' rfl rfl

/-- **A tour takes out what is to be lost.** -/
theorem keeps_tour (hl : T.Linked) (haction : r.action = .removeOthers) (hsteady : r.Steady T cut)
    (hcut : ∀ x, cut x = true → S x ∧ T.isElement x = true) (h : Tour T S ids events)
    (hordered : Ordered events) (hids : ∀ x ∈ ids, T.parent? x = some p) (hnodup : ids.Nodup) :
    Keeps r T S cut p ids events := by
  refine h.children_induction (P := fun p ids events => Ordered events → Keeps r T S cut p ids events)
    hl ?_ ?_ ?_ ?_ ?_ hids hnodup hordered
  · exact fun _ _ => keeps_nil
  · intro p id ids log more hids hnodup htour hmore hfirst hrest hordered
    obtain ⟨hlog, hlater, -⟩ := List.pairwise_append.mp hordered
    exact .cons hl hids hnodup (hordered.before hl htour hmore) (hfirst hlog) (hrest hlater)
  · intro p id s hp htext _
    have hspare : cut id = false := Bool.eq_false_iff.mpr fun h =>
      Tree.not_isElement_of_text? htext (hcut id h).2
    exact keeps_text hl haction hp htext hspare
  · intro p id inside hp helement hS hinside hordered
    exact .element hl haction hsteady hp helement hS
      (hinside (List.pairwise_append.mp hordered).1.tail)
  · intro p id inside hp helement hsilent hinside hordered
    have hspare : cut id = false := Bool.eq_false_iff.mpr fun h => hsilent (hcut id h).1
    exact .wrapper hl hp hsilent helement hspare (hinside hordered)

end Tours

/-- Above a match there is a last outermost one. -/
theorem Matches.exists_last (h : r.Matches T S x) (hl : T.Linked) {y : NodeId} (hyx : T.Above y x) :
    ∃ d, T.Last (r.Matches T S) (T.children y) d := by
  obtain ⟨d, hd, -⟩ := hl.exists_outermost h (hl.under_children.mpr hyx)
  refine hd.exists_last fun z hz => ?_
  obtain ⟨e, he⟩ := Tree.isElement_iff.mp hz.isElement
  exact Tree.lt_size_of_content? he

/-- Where nothing is cut, the way to the last outermost match is free. -/
theorem drops_iff_discards (hl : T.Linked) :
    r.Drops T S (fun _ => false) x ↔ r.Discards T S x := by
  have hguards : r.Guards T S (fun _ => false) x ↔ ∃ d, T.Above x d ∧ r.Matches T S d := by
    constructor
    · rintro ⟨d, hd, -⟩
      exact ⟨d, hl.under_children.mp hd.outermost.under, hd.outermost.holds⟩
    · rintro ⟨d, hxd, hd⟩
      obtain ⟨last, hlast⟩ := hd.exists_last hl hxd
      exact ⟨last, hlast, fun _ _ _ => rfl⟩
  simp [Drops, Discards, hguards]

end ElementRule

/-! ## Documents -/

section Documents

variable {ω : Type} {r : ElementRule} {t : Tree} {log : List Notice} {cut : NodeId → Bool}

/-- What the rule and those that cut take out of a document. -/
theorem exists_lost (htoured : Toured t log) (haction : r.action = .removeOthers)
    (hsteady : r.Steady t cut) (hcut : ∀ x, cut x = true → x ∈ nodesOf .elementStarted log) :
    ∃ u gone f, r.attendAll cut (log.map (·.event)) (t, {}) = (u, f) ∧ Tree.Pruned gone t u ∧
      ∀ x, x ∈ gone ↔ r.Loses t (· ∈ nodesOf .elementStarted log) cut x := by
  have hl := htoured.linked
  have hordered : ElementRule.Ordered (log.map (·.event)) := by
    have hlog := htoured.ordered
    rw [nodesOf, List.pairwise_map, List.pairwise_filter] at hlog
    rw [ElementRule.Ordered, List.pairwise_map]
    exact hlog.imp fun h hkind hkind' => h (by simpa using hkind) (by simpa using hkind')
  have hkeeps := ElementRule.keeps_tour hl haction hsteady
    (fun x hx => ⟨hcut x hx, (htoured.above_of_started (hcut x hx)).2⟩) htoured.tour hordered
    (fun x hx => (hl.mem_children _ x).mp hx) (hl.nodup Tree.root)
  have honly : ∀ a, t.Covers a Tree.root → a = Tree.root := fun a ha =>
    ha.resolve_right (Tree.not_above_of_parent?_none (hl.document_top _ htoured.document))
  have hready : ElementRule.Ready t cut Tree.root (t.children Tree.root) [] t := by
    refine ⟨.refl t, fun a ha => ?_, fun _ _ => by simp⟩
    rw [honly a ha]
    refine iff_of_false (by simp) fun h => ?_
    exact hl.acyclic _ (htoured.above_of_started (hcut _ h)).1
  obtain ⟨u, gone, f, hattend, hpruned, hgone, -⟩ := hkeeps t [] {} hready (.idle fun a ha hS => by
    rw [honly a ha] at hS
    exact absurd (htoured.above_of_started hS).1 (hl.acyclic _))
  refine ⟨u, gone, f, hattend, hpruned, fun x => ?_⟩
  rw [hgone, hl.under_children]
  refine ⟨fun h => (h.resolve_left (by simp)).2, fun h => .inr ⟨?_, h⟩⟩
  rcases h with h | ⟨⟨s, hs, hsx, -⟩, -⟩
  · exact (htoured.above_of_started (hcut x h)).1
  · exact (htoured.above_of_started hs.started).1.trans hsx

/-- The document element is at most the root of a scope. -/
theorem not_drops_html (htoured : Toured t log) {html : NodeId}
    (hhtml : t.documentElement? = some html) :
    ¬ r.Drops t (· ∈ nodesOf .elementStarted log) cut html := by
  rintro ⟨⟨s, hs, hsx, -⟩, -⟩
  have hparent := (htoured.linked.mem_children _ _).mp (Tree.documentElement?_eq_some hhtml).1
  exact htoured.linked.not_covers_of_above (htoured.above_of_started hs.started).1
    ((Tree.above_iff_covers hparent).mp hsx)

theorem play_single (r : ElementRule) (events : List Event) (t : Tree) (f : Focus) :
    (play events (t, [⟨r, f⟩])).1 = (r.attendAll (fun _ => false) events (t, f)).1 := by
  induction events generalizing t f with
  | nil => rfl
  | cons event events ih =>
    have hattend : r.attend (fun _ => false) event (t, f) =
        (t.cut event.node (r.verdict event t f).1, (r.verdict event t f).2) := by
      simp [ElementRule.attend, Tree.cut]
    rw [play_cons, ElementRule.attendAll_cons, hattend, ← ih]
    rfl

/-- **A rule that removes others leaves the document without what it discards**, as it is found in
the whole document. -/
theorem treeOf_removingOthers {p : Pipeline Focus ω} (hp : Obeys p [r]) (hr : r.Supported)
    (haction : r.action = .removeOthers) {q q' : Parser} {input : String}
    (hparse : q.parse input = (.ok t, q')) (hunmoved : Unmoved q'.issues) (memory : ω) :
    ∃ t' gone, (p.treeOf memory input).1 = .ok t' ∧ Tree.Pruned gone t t' ∧
      ∀ x, x ∈ gone ↔ r.Discards t (· ∈ sourceElements input) x := by
  have htoured := toured_of_source hparse hunmoved
  have hl := htoured.linked
  have hsteady : r.Steady t fun _ => false := by
    intro gone u x hpruned hline
    have houtlook : t.SameOutlook u x := by
      refine ⟨hpruned.ancestors_eq hl fun a ha hmem => ?_, fun y _ => hpruned.content y⟩
      cases (hline a ha).mp hmem
    exact ⟨picks_congr _ houtlook, r.opens_congr houtlook⟩
  obtain ⟨u, gone, f, hattend, hpruned, hgone⟩ :=
    exists_lost htoured haction hsteady fun x hx => by cases hx
  have hplay := play_single r ((sourceLog input).map (·.event)) t {}
  rw [hattend] at hplay
  have htree := treeOf_eq_play hp (by simpa using hr) hparse hunmoved memory
  have hdiscards : ∀ x, x ∈ gone ↔ r.Discards t (· ∈ sourceElements input) x := fun x => by
    rw [hgone, ElementRule.Loses, ElementRule.drops_iff_discards hl]
    exact or_iff_right (by simp)
  obtain ⟨html, hhtml⟩ := Option.isSome_iff_exists.mp htoured.root
  have hstays : html ∉ gone := fun hmem =>
    not_drops_html htoured hhtml (((hgone html).mp hmem).resolve_left (by simp))
  have hrooted : u.rooted = u := by rw [hpruned.rooted_eq htoured.lone hhtml, if_neg hstays]
  refine ⟨u, gone, ?_, hpruned, hdiscards⟩
  rw [htree, ← hrooted]
  exact congrArg (fun v : Tree => Except.ok v.rooted) hplay

theorem treeOf_removingOthers_main :
    let r : ElementRule :=
      ⟨[⟨[.tag "IMG"], [], "img"⟩], .removeOthers, some [⟨[.tag "MAIN"], [], "main"⟩]⟩
    let p : Pipeline Focus Unit := ofRules [.element r]
    let input := "<br><main>a<section><img>b<p>c"
    ∃ t q' t' gone, ({} : Parser).parse input = (.ok t, q') ∧ Unmoved q'.issues ∧
      (p.treeOf () input).1 = .ok t' ∧ Tree.Pruned gone t t' ∧
      (∀ x, x ∈ gone ↔ r.Discards t (· ∈ sourceElements input) x) ∧
      rendered t' = "<html><body><br><main><section><img></section></main></body></html>" := by
  intro r p input
  have hfound : (({} : Parser).parse input).1.toOption.map (fun _ => ()) = some () := by
    decide +kernel
  have hissues : (({} : Parser).parse input).2.issues = [] := by decide +kernel
  have hprocess : (p.process () input).1.toOption =
      some "<html><body><br><main><section><img></section></main></body></html>" := by
    decide +kernel
  obtain ⟨t, q', hparse, hunmoved, -⟩ := exists_parsed hfound hissues
  have hp : p.Obeys [r] := rfl
  have hr : r.Supported :=
    ⟨by simp [r, Selector.Supported, Simple.Supported], by simp [r, Selector.Supported, Simple.Supported]⟩
  obtain ⟨t', gone, htree, hpruned, hgone⟩ := treeOf_removingOthers hp hr rfl hparse hunmoved ()
  refine ⟨t, q', t', gone, hparse, hunmoved, htree, hpruned, hgone, ?_⟩
  simp only [Pipeline.process, htree] at hprocess
  exact Option.some.inj hprocess

end Documents

end Hypertext.Pipeline
