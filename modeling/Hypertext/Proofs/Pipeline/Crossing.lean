/-
A rule that removes, and behind it one that removes others. The second keeps in
mind the path to the last match it has met, as far as the first has left it
whole. A match inside what the first cuts off still counts, and its path, which
ends at the cut, takes the place of the one before: so a match that nothing
covers but what neither rule is after can be lost all the same
(`survives_iff_lost`). Which matches survive is told of the finished document
in `survives_iff`; all do where no match is inside what the first rule removes.
-/
import Hypertext.Proofs.Pipeline.Keeping
import Hypertext.Proofs.Pipeline.Removing

namespace Hypertext.Pipeline

open Markup Selector

/-- The rule is at work in the whole document, and its selectors look at nothing but the element. -/
structure ElementRule.Plain (r : ElementRule) : Prop where
  supported : r.Supported
  within : r.within = none
  single : ∀ s ∈ r.selectors, s.chain = []

section Pairs

variable {a b : ElementRule} {t T : Tree} {elements : List NodeId} {x : NodeId}

theorem opens_of_plain (ha : a.Plain) (t : Tree) (x : NodeId) : a.Opens t x := by
  intro selectors hwithin
  rw [ha.within] at hwithin
  cases hwithin

/-- A plain rule is not misled by what has been taken out. -/
theorem steady_of_plain (hb : b.Plain) (cut : NodeId → Bool) : b.Steady T cut :=
  fun _ t x hpruned _ => ⟨picks_congr_of_single hb.single (hpruned.content x),
    iff_of_true (opens_of_plain hb t x) (opens_of_plain hb T x)⟩

/-- What a plain rule removes is told by the elements alone. -/
theorem verdict_plain (ha : a.Plain) (haction : a.action = .remove) {event : Event} (f : Focus)
    (hcontent : ∀ y, t.content? y = T.content? y)
    (hstarted : event.kind = .elementStarted → event.node ∈ elements) :
    (a.verdict event t f).1 = (decide (event.kind = .elementStarted) &&
      decide (a.Matches T (· ∈ elements) event.node)) := by
  obtain ⟨kind, x⟩ := event
  cases kind with
  | textCreated => simp [verdict_text haction]
  | elementEnded => simp [verdict_ended haction]
  | elementStarted =>
    have hscope : (a.entered t f x).scope ≠ none := by
      rw [ElementRule.entered]
      split
      · simp
      · next h => exact fun hnone => h ⟨hnone, opens_of_plain ha t x⟩
    simp only [verdict_started haction, hscope, picks_congr_of_single ha.single (hcontent x),
      ElementRule.Matches, hstarted rfl, ne_eq, not_false_eq_true, true_and, decide_true,
      Bool.true_and]

/-- Behind a plain rule that removes, another attends to what that one leaves. -/
theorem play_pair (ha : a.Plain) (haction : a.action = .remove) {events : List Event}
    (hcontent : ∀ y, t.content? y = T.content? y)
    (hstarted : ∀ e ∈ events, e.kind = .elementStarted → e.node ∈ elements) (f f' : Focus) :
    (play events (t, [⟨a, f⟩, ⟨b, f'⟩])).1 =
      (b.attendAll (fun x => decide (a.Matches T (· ∈ elements) x)) events (t, f')).1 := by
  induction events generalizing t f f' with
  | nil => rfl
  | cons event events ih =>
    have hcut : ∀ (u : Tree) out, (∀ y, u.content? y = T.content? y) →
        ∀ y, (u.cut event.node out).content? y = T.content? y := by
      intro u out hu y
      rw [Tree.cut]
      split
      · rw [Tree.content?_remove, hu]
      · exact hu y
    have hverdict := verdict_plain ha haction f hcontent (hstarted event List.mem_cons_self)
    rw [play_cons, ElementRule.attendAll_cons]
    simp only [turn, hverdict]
    rw [ih (hcut _ _ (hcut _ _ hcontent)) fun e he => hstarted e (.tail _ he)]
    rfl

end Pairs

/-! ## Documents -/

section Documents

variable {ω : Type} {a b : ElementRule} {t : Tree} {x : NodeId}

/-- Where no match is inside what is cut, an element above a match leads to the last one. -/
theorem guards_of_apart {S : NodeId → Prop} {cut : NodeId → Bool} (hl : t.Linked)
    (hapart : ∀ d c, b.Matches t S d → t.Covers c d → cut c = false) {y : NodeId}
    (hx : b.Matches t S x) (hyx : t.Above y x) : b.Guards t S cut y := by
  obtain ⟨last, hlast⟩ := hx.exists_last hl hyx
  exact ⟨last, hlast, fun c _ hc => hapart last c hlast.outermost.holds hc⟩

/-- **Which matches survive** behind a rule that removes, of those that nothing covers which that
rule removes: the ones all elements above which lead to the last outermost match that is below
them, with nothing removed on the way. -/
theorem survives_iff {p : Pipeline Focus ω} (hp : Obeys p [a, b]) (ha : a.Plain) (hb : b.Plain)
    (hremove : a.action = .remove) (hothers : b.action = .removeOthers) {q q' : Parser}
    {input : String} (hparse : q.parse input = (.ok t, q')) (hunmoved : Unmoved q'.issues)
    (memory : ω) (hx : b.Matches t (· ∈ sourceElements input) x)
    (hspared : ∀ c, t.Covers c x → ¬ a.Matches t (· ∈ sourceElements input) c) :
    let S := (· ∈ sourceElements input)
    let cut := fun c => decide (a.Matches t (· ∈ sourceElements input) c)
    ∃ t' gone, (p.treeOf memory input).1 = .ok t' ∧ Tree.Pruned gone t t' ∧
      (t'.Above Tree.root x ↔ ∀ y, t.Above y x → ¬ b.Drops t S cut y) ∧
      ((∀ d c, b.Matches t S d → t.Covers c d → ¬ a.Matches t S c) → t'.Above Tree.root x) := by
  intro S cut
  have htoured := toured_of_source hparse hunmoved
  have hl := htoured.linked
  have hcut : ∀ c, cut c = true → c ∈ nodesOf .elementStarted (sourceLog input) := fun c hc =>
    (of_decide_eq_true hc).1
  obtain ⟨u, gone, f, hattend, hpruned, hgone⟩ :=
    exists_lost htoured hothers (steady_of_plain hb cut) hcut
  have hstarted : ∀ e ∈ (sourceLog input).map (·.event), e.kind = .elementStarted →
      e.node ∈ sourceElements input := by
    intro e he hkind
    obtain ⟨n, hn, rfl⟩ := List.mem_map.mp he
    exact List.mem_map.mpr ⟨n, List.mem_filter.mpr ⟨hn, decide_eq_true hkind⟩, rfl⟩
  have hplay := play_pair (b := b) (T := t) ha hremove (fun _ => rfl) hstarted {} {}
  rw [hattend] at hplay
  have htree := treeOf_eq_play hp (by simp [ha.supported, hb.supported]) hparse hunmoved memory
  have hlost : ∀ c, t.Covers c x → (c ∈ gone ↔ b.Drops t S cut c) := fun c hc => by
    rw [hgone]
    exact or_iff_right fun h => hspared c hc (of_decide_eq_true h)
  have hbelow : ∀ y, b.Drops t S cut y → t.Above Tree.root y := fun y ⟨⟨s, hs, hsy, _⟩, _⟩ =>
    (htoured.above_of_started hs.started).1.trans hsy
  obtain ⟨html, hhtml⟩ := Option.isSome_iff_exists.mp htoured.root
  have hstays : html ∉ gone := fun hmem =>
    not_drops_html htoured hhtml ((hlost html (htoured.covers_of_started hhtml hx.1)).mp hmem)
  have hrooted : u.rooted = u := by rw [hpruned.rooted_eq htoured.lone hhtml, if_neg hstays]
  have htree' : (p.treeOf memory input).1 = .ok u := by
    rw [htree, ← hrooted]
    exact congrArg (fun v : Tree => Except.ok v.rooted) hplay
  have hreached : u.Above Tree.root x ↔ ∀ y, t.Above y x → ¬ b.Drops t S cut y := by
    rw [hpruned.above_iff hl]
    constructor
    · rintro ⟨-, hfree⟩ y hyx hdrops
      exact hfree y (hbelow y hdrops) (.inr hyx) ((hlost y (.inr hyx)).mpr hdrops)
    · refine fun hfree => ⟨(htoured.above_of_started hx.1).1, fun y _ hyx hmem => ?_⟩
      have hdrops := (hlost y hyx).mp hmem
      rcases hyx with rfl | hyx
      · obtain ⟨⟨s, -, hsy, hnone⟩, -⟩ := hdrops
        exact hnone y (.inr hsy) (.refl t y) hx
      · exact hfree y hyx hdrops
  refine ⟨u, gone, htree', hpruned, hreached, fun hapart => hreached.mpr fun y hyx => ?_⟩
  rintro ⟨-, htext | ⟨-, hlast⟩⟩
  · obtain ⟨s, hs⟩ := Option.isSome_iff_exists.mp htext
    have heq := (hl.covers_text hs).mp (.inr hyx)
    exact hl.acyclic y (heq ▸ hyx)
  · exact hlast (guards_of_apart hl (fun d c hd hc => decide_eq_false (hapart d c hd hc)) hx hyx)

/-- The match inside the `aside` takes the place of the one before it, and with that one's path the
`section` around it is lost. -/
theorem survives_iff_lost :
    let a : ElementRule := ⟨[⟨[.tag "ASIDE"], [], "aside"⟩], .remove, none⟩
    let b : ElementRule := ⟨[⟨[.tag "IMG"], [], "img"⟩], .removeOthers, none⟩
    let p : Pipeline Focus Unit := ofRules [.element a, .element b]
    let input := "<main><section><img><aside><img>"
    let S := (· ∈ sourceElements input)
    ∃ t q' t' gone, ({} : Parser).parse input = (.ok t, q') ∧ Unmoved q'.issues ∧
      b.Matches t S ⟨5⟩ ∧ (∀ c, t.Covers c ⟨5⟩ → ¬ a.Matches t S c) ∧
      (p.treeOf () input).1 = .ok t' ∧ Tree.Pruned gone t t' ∧ ¬ t'.Above Tree.root ⟨5⟩ ∧
      ∃ y, t.Above y ⟨5⟩ ∧ b.Drops t S (fun c => decide (a.Matches t S c)) y := by
  intro a b p input S
  have helements : sourceElements input = [⟨1⟩, ⟨4⟩, ⟨5⟩, ⟨6⟩, ⟨7⟩] := by decide +kernel
  have hfound : (({} : Parser).parse input).1.toOption.map (fun t =>
      let S := (· ∈ ([⟨1⟩, ⟨4⟩, ⟨5⟩, ⟨6⟩, ⟨7⟩] : List NodeId))
      decide (b.Matches t S ⟨5⟩ ∧ ∀ c ∈ (⟨5⟩ : NodeId) :: t.ancestors ⟨5⟩, ¬ a.Matches t S c)) =
      some true := by
    decide +kernel
  have hissues : (({} : Parser).parse input).2.issues = [] := by decide +kernel
  have hlost : (p.treeOf () input).1.toOption.map (·.isDescendant ⟨5⟩ Tree.root) = some false := by
    decide +kernel
  obtain ⟨t, q', hparse, hunmoved, hfound⟩ := exists_parsed hfound hissues
  rw [← helements] at hfound
  obtain ⟨hmatches, hspared⟩ := of_decide_eq_true hfound
  have hl := (toured_of_source hparse hunmoved).linked
  have ha : a.Plain :=
    ⟨⟨by simp [a, Selector.Supported, Simple.Supported], by simp [a]⟩, rfl, by simp [a]⟩
  have hb : b.Plain :=
    ⟨⟨by simp [b, Selector.Supported, Simple.Supported], by simp [b]⟩, rfl, by simp [b]⟩
  have hp : p.Obeys [a, b] := rfl
  have hspared' : ∀ c, t.Covers c ⟨5⟩ → ¬ a.Matches t S c := fun c hc =>
    hspared c (hl.mem_cons_ancestors.mpr hc)
  obtain ⟨t', gone, htree, hpruned, hiff, -⟩ :=
    survives_iff hp ha hb rfl rfl hparse hunmoved () hmatches hspared'
  have hunreached : ¬ t'.Above Tree.root ⟨5⟩ := by
    rw [htree] at hlost
    rw [← (hpruned.linked hl).isDescendant_iff]
    exact Bool.eq_false_iff.mp (Option.some.inj hlost)
  refine ⟨t, q', t', gone, hparse, hunmoved, hmatches, hspared', htree, hpruned, hunreached, ?_⟩
  by_contra hnone
  exact hunreached (hiff.mpr fun y hy hdrops => hnone ⟨y, hy, hdrops⟩)

end Documents

end Hypertext.Pipeline
