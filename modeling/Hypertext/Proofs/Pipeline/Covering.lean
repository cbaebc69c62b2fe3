/-
A rule that removes others, in no scope but the whole document. Where the
outermost element is made by the parser, not by a tag, each element that starts
in no other is the root of a scope of its own, and no rule takes out the root
of its scope; and the texts in no element that starts are in no scope at all.
So these are left although nothing on their line matches, and nothing else is
(`stray_iff`).
-/
import Hypertext.Proofs.Pipeline.Keeping

namespace Hypertext.Pipeline

open Markup Selector

namespace ElementRule

/-- No element that `S` holds of is above the node. -/
def Outer (T : Tree) (S : NodeId → Prop) (x : NodeId) : Prop :=
  ∀ a, T.Above a x → ¬ S a

/-- The node is left in `t'` although nothing that the selectors match in `T` is above it: a text,
or an element but the document element that does not match itself and has no match below it. -/
def Stray (r : ElementRule) (T t' : Tree) (S : NodeId → Prop) (x : NodeId) : Prop :=
  t'.Above Tree.root x ∧ (∀ a, t'.Above a x → ¬ r.Matches T S a) ∧
    ((t'.text? x).isSome = true ∨
      S x ∧ t'.documentElement? ≠ some x ∧ ∀ d, t'.Covers x d → ¬ r.Matches T S d)

/-- What the rule leaves of a document: in it a node is above another where nothing on the way is
discarded. -/
structure Leaving (r : ElementRule) (T t' : Tree) (S : NodeId → Prop) : Prop where
  text : t'.text? = T.text?
  documentElement : t'.documentElement? = T.documentElement?
  above_iff : ∀ a x, t'.Above a x ↔
    T.Above a x ∧ ∀ b, T.Above a b → T.Covers b x → ¬ r.Discards T S b

variable {r : ElementRule} {T t' : Tree} {S : NodeId → Prop} {x a d : NodeId}

/-- What has been taken out does not matter to what nothing of it covers. -/
theorem steady_uncut (hl : T.Linked) : r.Steady T fun _ => false := by
  intro gone t x hpruned hline
  have houtlook : T.SameOutlook t x := by
    refine ⟨hpruned.ancestors_eq hl fun a ha hmem => ?_, fun y _ => hpruned.content y⟩
    cases (hline a ha).mp hmem
  exact ⟨picks_congr _ houtlook, r.opens_congr houtlook⟩

section Whole

variable (hwithin : r.within = none)
include hwithin

theorem opens_of_whole (T : Tree) (x : NodeId) : r.Opens T x := by
  intro selectors h
  rw [hwithin] at h
  cases h

theorem roots_iff_outer : r.Roots T S x ↔ S x ∧ Outer T S x :=
  ⟨fun h => ⟨h.started, fun a ha hS => h.first a ha hS (opens_of_whole hwithin T a)⟩,
    fun ⟨hS, houter⟩ => ⟨hS, opens_of_whole hwithin T x, fun a ha hS => absurd hS (houter a ha)⟩⟩

theorem exists_roots (hl : T.Linked) (ha : S a) : ∃ s, r.Roots T S s ∧ T.Covers s a := by
  induction a using hl.wellFounded_above.induction with
  | _ a ih =>
    by_cases houter : Outer T S a
    · exact ⟨a, (roots_iff_outer hwithin).mpr ⟨ha, houter⟩, .refl T a⟩
    · simp only [Outer, not_forall, not_not] at houter
      obtain ⟨b, hba, hb⟩ := houter
      obtain ⟨s, hs, hsb⟩ := ih b hba hb
      exact ⟨s, hs, hsb.trans (.inr hba)⟩

/-- In an element that starts, a text is discarded unless a match is above it, and an element unless
there is a match on its line. -/
theorem discards_iff_whole (hl : T.Linked) : r.Discards T S x ↔
    ¬ Outer T S x ∧ (∀ a, T.Covers a x → ¬ r.Matches T S a) ∧
      ((T.text? x).isSome = true ∨ S x ∧ ∀ d, T.Above x d → ¬ r.Matches T S d) := by
  rw [Discards, ← and_assoc]
  refine and_congr_left fun _ => ⟨?_, ?_⟩
  · rintro ⟨s, hs, hsx, hfree⟩
    refine ⟨fun houter => houter s hsx hs.started, fun a ha hmatches => ?_⟩
    rcases ha.total (.inr hsx) with (rfl | has) | hsa
    · exact hfree a (.refl T a) ha hmatches
    · exact ((roots_iff_outer hwithin).mp hs).2 a has hmatches.1
    · exact hfree a hsa ha hmatches
  · rintro ⟨hinside, hfree⟩
    simp only [Outer, not_forall, not_not] at hinside
    obtain ⟨b, hbx, hb⟩ := hinside
    obtain ⟨s, hs, hsb⟩ := exists_roots hwithin hl hb
    exact ⟨s, hs, hsb.above hbx, fun a _ => hfree a⟩

/-- Nothing on a line that leads to a node that is outer is discarded. -/
theorem not_discards_of_outer (hl : T.Linked) (houter : Outer T S x) (hax : T.Covers a x) :
    ¬ r.Discards T S a := fun h =>
  ((discards_iff_whole hwithin hl).mp h).1 fun b hba => houter b (Tree.Above.trans_covers hba hax)

/-- Nothing on a line that leads to a match is discarded. -/
theorem not_discards_of_matches (hl : T.Linked) (hx : r.Matches T S x) (hax : T.Covers a x) :
    ¬ r.Discards T S a := by
  intro h
  obtain ⟨-, hfree, hrest⟩ := (discards_iff_whole hwithin hl).mp h
  rcases hax with rfl | hax
  · exact hfree a (.refl T a) hx
  · rcases hrest with htext | ⟨-, hnone⟩
    · obtain ⟨s, hs⟩ := Option.isSome_iff_exists.mp htext
      exact hl.acyclic x (((hl.covers_text hs).mp (.inr hax)) ▸ hax)
    · exact hnone x hax hx

/-- What is above a match is still above it. -/
theorem Leaving.above_of_matches (h : Leaving r T t' S) (hl : T.Linked) (hd : r.Matches T S d)
    (hxd : T.Above x d) : t'.Above x d :=
  (h.above_iff x d).mpr ⟨hxd, fun _ _ => not_discards_of_matches hwithin hl hd⟩

/-- What is left without a match is outer, and all of that is left. -/
theorem Leaving.stray_iff_outer (h : Leaving r T t' S) (hl : T.Linked)
    (hS : ∀ x, S x → T.Above Tree.root x) :
    r.Stray T t' S x ↔ T.Above Tree.root x ∧ Outer T S x ∧
      ((T.text? x).isSome = true ∨
        S x ∧ T.documentElement? ≠ some x ∧ ∀ d, T.Covers x d → ¬ r.Matches T S d) := by
  rw [Stray, h.text, h.documentElement]
  constructor
  · rintro ⟨hx, hfree, hrest⟩
    obtain ⟨hroot, hkept⟩ := (h.above_iff _ _).mp hx
    have hup : ∀ a, T.Above a x → ¬ r.Matches T S a := fun a ha hmatches =>
      hfree a ((h.above_iff a x).mpr ⟨ha, fun b hab => hkept b ((hS a hmatches.1).trans hab)⟩) hmatches
    have hdown : (T.text? x).isSome = true ∨
        S x ∧ T.documentElement? ≠ some x ∧ ∀ d, T.Covers x d → ¬ r.Matches T S d := by
      refine hrest.imp_right fun ⟨hx, hne, hnone⟩ => ⟨hx, hne, fun d hd hmatches => ?_⟩
      exact hnone d (hd.imp_right (h.above_of_matches hwithin hl hmatches)) hmatches
    have hself : ¬ r.Matches T S x := fun hmatches => by
      rcases hdown with hs | ⟨-, -, hnone⟩
      · obtain ⟨s, hs⟩ := Option.isSome_iff_exists.mp hs
        exact Tree.not_isElement_of_text? hs hmatches.isElement
      · exact hnone x (.refl T x) hmatches
    refine ⟨hroot, ?_, hdown⟩
    -- An inner node with no match on its line would have been discarded.
    by_contra hinner
    refine hkept x hroot (.refl T x) ((discards_iff_whole hwithin hl).mpr ⟨hinner, ?_, ?_⟩)
    · rintro a (rfl | ha)
      · exact hself
      · exact hup a ha
    · exact hdown.imp_right fun ⟨hx, _, hnone⟩ => ⟨hx, fun d hd => hnone d (.inr hd)⟩
  · rintro ⟨hroot, houter, hrest⟩
    refine ⟨(h.above_iff _ _).mpr ⟨hroot, fun b _ hbx =>
      not_discards_of_outer hwithin hl houter hbx⟩, fun a ha hmatches => ?_, ?_⟩
    · exact houter a ((h.above_iff a x).mp ha).1 hmatches.1
    · refine hrest.imp_right fun ⟨hx, hne, hnone⟩ => ⟨hx, hne, fun d hd => ?_⟩
      exact hnone d (hd.imp_right fun hd => ((h.above_iff x d).mp hd).1)

end Whole

end ElementRule

/-! ## Documents -/

section Documents

variable {ω : Type} {r : ElementRule} {t : Tree}

theorem exists_leaving {p : Pipeline Focus ω} (hp : Obeys p [r]) (hr : r.Supported)
    (haction : r.action = .removeOthers) {q q' : Parser} {input : String}
    (hparse : q.parse input = (.ok t, q')) (hunmoved : Unmoved q'.issues) (memory : ω) :
    ∃ t', (p.treeOf memory input).1 = .ok t' ∧ r.Leaving t t' (· ∈ sourceElements input) := by
  have htoured := toured_of_source hparse hunmoved
  have hl := htoured.linked
  obtain ⟨u, gone, f, hattend, hpruned, hgone⟩ :=
    exists_lost htoured haction (ElementRule.steady_uncut hl) fun x hx => by cases hx
  have hdiscards : ∀ x, x ∈ gone ↔ r.Discards t (· ∈ sourceElements input) x := fun x => by
    rw [hgone, ElementRule.Loses, ElementRule.drops_iff_discards hl]
    exact or_iff_right (by simp)
  have hplay := play_single r ((sourceLog input).map (·.event)) t {}
  rw [hattend] at hplay
  obtain ⟨html, hhtml⟩ := Option.isSome_iff_exists.mp htoured.root
  have hstays : html ∉ gone := fun hmem =>
    not_drops_html htoured hhtml (((hgone html).mp hmem).resolve_left (by simp))
  have hrooted : u.rooted = u := by rw [hpruned.rooted_eq htoured.lone hhtml, if_neg hstays]
  have htree := treeOf_eq_play hp (by simpa using hr) hparse hunmoved memory
  refine ⟨u, ?_, ?_, ?_, fun a x => ?_⟩
  · rw [htree, ← hrooted]
    exact congrArg (fun v : Tree => Except.ok v.rooted) hplay
  · funext x
    rw [Tree.text?, hpruned.content, Tree.text?]
  · rw [hhtml]
    exact hpruned.documentElement?_eq htoured.lone hhtml hstays
  · simp only [hpruned.above_iff hl, hdiscards]

/-- **What a rule leaves over that removes others from the whole document**: the elements that start
in no other and have no match on their line, but for the document element, and the texts in no
element that starts. Where the document element is from a tag, these are texts only. -/
theorem stray_iff {p : Pipeline Focus ω} (hp : Obeys p [r]) (hr : r.Supported)
    (hwithin : r.within = none) (haction : r.action = .removeOthers) {q q' : Parser}
    {input : String} (hparse : q.parse input = (.ok t, q')) (hunmoved : Unmoved q'.issues)
    (memory : ω) :
    let S := (· ∈ sourceElements input)
    ∃ t', (p.treeOf memory input).1 = .ok t' ∧
      (∀ x, r.Stray t t' S x ↔ t.Above Tree.root x ∧ ElementRule.Outer t S x ∧
        ((t.text? x).isSome = true ∨
          S x ∧ t.documentElement? ≠ some x ∧ ∀ d, t.Covers x d → ¬ r.Matches t S d)) ∧
      ∀ html, t.documentElement? = some html → S html →
        ∀ x, r.Stray t t' S x → (t.text? x).isSome = true := by
  intro S
  have htoured := toured_of_source hparse hunmoved
  obtain ⟨t', htree, hleaving⟩ := exists_leaving hp hr haction hparse hunmoved memory
  have hiff := fun x => hleaving.stray_iff_outer (x := x) hwithin htoured.linked fun x hx =>
    (htoured.above_of_started hx).1
  refine ⟨t', htree, hiff, fun html hhtml hS x hx => ?_⟩
  obtain ⟨-, houter, hrest⟩ := (hiff x).mp hx
  refine hrest.resolve_right fun ⟨hstarted, hne, _⟩ => ?_
  rcases htoured.covers_of_started hhtml hstarted with rfl | h
  · exact hne hhtml
  · exact houter html h hS

/-- The `hr` is the root of the first scope, and is left though it does not match. -/
theorem stray_iff_rule :
    let r : ElementRule := ⟨[⟨[.tag "P"], [], "p"⟩], .removeOthers, none⟩
    let p : Pipeline Focus Unit := ofRules [.element r]
    let input := "<hr><p>"
    ∃ t q' t', ({} : Parser).parse input = (.ok t, q') ∧ Unmoved q'.issues ∧
      (p.treeOf () input).1 = .ok t' ∧ r.Stray t t' (· ∈ sourceElements input) ⟨1⟩ ∧
      rendered t' = "<html><body><hr><p></p></body></html>" := by
  intro r p input
  have helements : sourceElements input = [⟨1⟩, ⟨4⟩] := by decide +kernel
  have hfound : (({} : Parser).parse input).1.toOption.map (fun t =>
      decide (Tree.root ∈ t.ancestors ⟨1⟩ ∧ (∀ a ∈ t.ancestors ⟨1⟩, a ∉ [⟨1⟩, ⟨4⟩]) ∧
        t.documentElement? ≠ some ⟨1⟩ ∧ ¬ Picks t r.selectors ⟨1⟩ ∧ ⟨1⟩ ∉ t.ancestors ⟨4⟩)) =
      some true := by
    decide +kernel
  have hissues : (({} : Parser).parse input).2.issues = [] := by decide +kernel
  have hprocess : (p.process () input).1.toOption = some "<html><body><hr><p></p></body></html>" := by
    decide +kernel
  obtain ⟨t, q', hparse, hunmoved, hfound⟩ := exists_parsed hfound hissues
  rw [← helements] at hfound
  obtain ⟨hroot, houter, hne, hself, hapart⟩ := of_decide_eq_true hfound
  have hl := (toured_of_source hparse hunmoved).linked
  have hp : p.Obeys [r] := rfl
  have hr : r.Supported := ⟨by simp [r, Selector.Supported, Simple.Supported], by simp [r]⟩
  obtain ⟨t', htree, hiff, -⟩ := stray_iff hp hr rfl rfl hparse hunmoved ()
  refine ⟨t, q', t', hparse, hunmoved, htree, (hiff ⟨1⟩).mpr ⟨?_, ?_, .inr ⟨?_, hne, ?_⟩⟩, ?_⟩
  · exact hl.mem_ancestors.mp hroot
  · exact fun a ha => houter a (hl.mem_ancestors.mpr ha)
  · rw [helements]
    exact List.mem_cons_self
  · rintro d (rfl | hd) hmatches
    · exact hself hmatches.2
    · have hstarted := hmatches.1
      rw [helements, List.mem_pair] at hstarted
      rcases hstarted with rfl | rfl
      · exact hl.acyclic _ hd
      · exact hapart (hl.mem_ancestors.mpr hd)
  · simp only [Pipeline.process, htree] at hprocess
    exact Option.some.inj hprocess

end Documents

end Hypertext.Pipeline
