/-
Rules that take out what their selectors match. However many there are, and
whatever they take out while a document is read, what is left is the finished
document without the elements that one of the rules matches there
(`treeOf_removing`); so the order of the rules is no matter.

A tour of what is below a node brings all rules back to where they were at work
before (`Removers.tour`). Where nothing above the node is gone, the rules see
what they would see in the finished document; below a node that is gone it does
not matter what they see.
-/
import Hypertext.Proofs.Pipeline.Crew
import Hypertext.Proofs.Tree.Below

namespace Hypertext.Pipeline

open Markup Selector

/-- The rule takes out the node: its selectors match the node, and the node or one above it may
open a scope. Only the elements that `S` holds of count. -/
def ElementRule.Removes (r : ElementRule) (T : Tree) (S : NodeId → Prop) (x : NodeId) : Prop :=
  S x ∧ Picks T r.selectors x ∧ ∃ a ∈ x :: T.ancestors x, S a ∧ r.Opens T a

instance (r : ElementRule) (T : Tree) (S : NodeId → Prop) [DecidablePred S] :
    DecidablePred (r.Removes T S) :=
  fun _ => inferInstanceAs (Decidable (_ ∧ _ ∧ _))

/-- The elements that the rules take out of a document, of those that start tags stand for. -/
def removed (rules : List ElementRule) (t : Tree) (elements : List NodeId) : List NodeId :=
  elements.filter fun x => ∃ r ∈ rules, r.Removes t (· ∈ elements) x

variable {t T : Tree} {S : NodeId → Prop} {crew crew' : List Worker} {x p : NodeId}

/-! ## Single events -/

/-- The worker removes what its selectors match; all it has to keep in mind is its scope. -/
structure Worker.Remover (w : Worker) : Prop where
  action : w.rule.action = .remove
  kept : w.focus.kept = none
  path : w.focus.path = []

/-- All workers of a crew are removers, none of them in a scope that is one of the nodes or below. -/
structure Removers (T : Tree) (ids : List NodeId) (crew : List Worker) : Prop where
  removers : ∀ w ∈ crew, w.Remover
  outside : ∀ w ∈ crew, ∀ s, w.focus.scope = some s → ¬ T.Under ids s

/-- The worker may have opened a scope at the node. -/
def Worker.Entered (x : NodeId) (w w' : Worker) : Prop :=
  w' = w ∨ w.focus.scope = none ∧ w' = { w with focus := { w.focus with scope := some x } }

theorem entered_entered (w : Worker) (t : Tree) (x : NodeId) :
    w.Entered x { w with focus := w.rule.entered t w.focus x } := by
  rw [ElementRule.entered]
  split
  · next h => exact .inr ⟨h.1, rfl⟩
  · exact .inl rfl

section Verdicts

variable {r : ElementRule} (haction : r.action = .remove)
include haction

theorem verdict_started (t : Tree) (f : Focus) (x : NodeId) :
    r.verdict ⟨.elementStarted, x⟩ t f =
      (decide ((r.entered t f x).scope ≠ none ∧ Picks t r.selectors x), r.entered t f x) := by
  simp only [ElementRule.verdict, haction]
  cases (r.entered t f x).scope <;> simp

theorem verdict_ended (t : Tree) (f : Focus) (x : NodeId) :
    r.verdict ⟨.elementEnded, x⟩ t f = (false, if f.scope = some x then {} else f) := by
  simp only [ElementRule.verdict, haction, or_true, if_true]
  split <;> rfl

theorem verdict_text (t : Tree) (f : Focus) (x : NodeId) :
    r.verdict ⟨.textCreated, x⟩ t f = (false, f) := by
  simp [ElementRule.verdict, haction]

end Verdicts

theorem turn_text (hcrew : ∀ w ∈ crew, w.Remover) (t : Tree) (x : NodeId) :
    turn ⟨.textCreated, x⟩ t crew = (t, crew) := by
  induction crew generalizing t with
  | nil => rfl
  | cons w crew ih =>
    simp only [turn, verdict_text (hcrew w List.mem_cons_self).action, Tree.cut, Bool.false_eq_true,
      if_false, ih fun w hw => hcrew w (.tail _ hw)]

/-- The worker's scope is what it has to be among the nodes under `p`. -/
structure Worker.Apt (T : Tree) (S : NodeId → Prop) (p : NodeId) (w : Worker) : Prop where
  scope : ∀ s, w.focus.scope = some s → T.Covers s p ∧ S s ∧ w.rule.Opens T s
  idle : w.focus.scope = none → ∀ a, T.Covers a p → S a → ¬ w.rule.Opens T a

/-- Where the outlook is that of the finished document, an element takes the scope along. -/
theorem Worker.Apt.entered {w : Worker} (h : w.Apt T S p) (hp : T.parent? x = some p) (hx : S x)
    (hsame : T.SameOutlook t x) :
    Worker.Apt T S x { w with focus := w.rule.entered t w.focus x } := by
  rw [ElementRule.entered]
  by_cases hopens : w.focus.scope = none ∧ w.rule.Opens t x
  · rw [if_pos hopens]
    refine ⟨fun s hs => ?_, fun hnone => by cases hnone⟩
    cases hs
    exact ⟨.refl T x, hx, (ElementRule.opens_congr w.rule hsame).mp hopens.2⟩
  · rw [if_neg hopens]
    refine ⟨fun s hs => ?_, fun hnone a ha hSa => ?_⟩
    · obtain ⟨hcovers, hSs, hs⟩ := h.scope s hs
      exact ⟨hcovers.trans (.inr (.single hp)), hSs, hs⟩
    · rcases (Tree.covers_iff hp).mp ha with rfl | ha
      · exact fun ho => hopens ⟨hnone, (ElementRule.opens_congr w.rule hsame).mpr ho⟩
      · exact h.idle hnone a ha hSa

theorem Worker.Apt.scope_ne_none {w : Worker} (h : w.Apt T S x) (hl : T.Linked) :
    w.focus.scope ≠ none ↔ ∃ a ∈ x :: T.ancestors x, S a ∧ w.rule.Opens T a := by
  simp only [hl.mem_cons_ancestors]
  constructor
  · intro hne
    obtain ⟨s, hs⟩ := Option.ne_none_iff_exists'.mp hne
    exact ⟨s, h.scope s hs⟩
  · rintro ⟨a, ha, hSa, ho⟩ hnone
    exact h.idle hnone a ha hSa ho

/-- The start of an element takes it out or leaves it, and opens scopes nowhere but there. Where the
outlook is that of the finished document, it is taken out if one of the rules takes it out there. -/
theorem turn_started (hl : T.Linked) (hcrew : ∀ w ∈ crew, w.Remover) (t : Tree) (x : NodeId) :
    ∃ out crew', turn ⟨.elementStarted, x⟩ t crew = (t.cut x out, crew') ∧
      List.Forall₂ (Worker.Entered x) crew crew' ∧
      (T.SameOutlook t x → T.parent? x = some p → S x → (∀ w ∈ crew, w.Apt T S p) →
        (out = true ↔ ∃ w ∈ crew, w.rule.Removes T S x) ∧
        (out = false → ∀ w ∈ crew', w.Apt T S x)) := by
  induction crew generalizing t with
  | nil => exact ⟨false, [], rfl, .nil, fun _ _ _ _ => by simp⟩
  | cons w crew ih =>
    have hw := hcrew w List.mem_cons_self
    obtain ⟨out, crew', hturn, hentered, hlive⟩ := ih (fun w hw => hcrew w (.tail _ hw))
      (t.cut x (w.rule.verdict ⟨.elementStarted, x⟩ t w.focus).1)
    refine ⟨(w.rule.verdict ⟨.elementStarted, x⟩ t w.focus).1 || out, _, ?_,
      .cons (entered_entered w t x) hentered, fun hsame hp hx hapt => ?_⟩
    · simp only [turn, hturn, Tree.cut_cut]
      rw [verdict_started hw.action]
    · have hnext := (hapt w List.mem_cons_self).entered hp hx hsame
      have hverdict : (w.rule.verdict ⟨.elementStarted, x⟩ t w.focus).1 = true ↔
          w.rule.Removes T S x := by
        rw [verdict_started hw.action, decide_eq_true_iff, picks_congr _ hsame]
        have hscope := hnext.scope_ne_none hl
        simp only at hscope
        rw [hscope, ElementRule.Removes]
        exact ⟨fun h => ⟨hx, h.2, h.1⟩, fun h => ⟨h.2.2, h.2.1⟩⟩
      by_cases hremoves : w.rule.Removes T S x
      · rw [hverdict.mpr hremoves, Bool.true_or]
        exact ⟨by simp [hremoves], by simp⟩
      · have hfalse := Bool.eq_false_iff.mpr fun h => hremoves (hverdict.mp h)
        rw [hfalse] at hlive ⊢
        obtain ⟨hout, hrest⟩ := hlive hsame hp hx fun w hw => hapt w (.tail _ hw)
        refine ⟨by simp [hout, hremoves], fun h w' hw' => ?_⟩
        rcases List.mem_cons.mp hw' with rfl | hw'
        · exact hnext
        · exact hrest h w' hw'

/-- The end of an element closes the scopes that were opened at its start. -/
theorem turn_ended (hcrew : ∀ w ∈ crew, w.Remover) (hscope : ∀ w ∈ crew, w.focus.scope ≠ some x)
    (hentered : List.Forall₂ (Worker.Entered x) crew crew') (t : Tree) :
    turn ⟨.elementEnded, x⟩ t crew' = (t, crew) := by
  induction hentered generalizing t with
  | nil => rfl
  | @cons w w' crew crew' hw' _ ih =>
    have hw := hcrew w List.mem_cons_self
    have ih := ih (fun w hw => hcrew w (.tail _ hw)) (fun w hw => hscope w (.tail _ hw))
    rcases hw' with rfl | ⟨hnone, rfl⟩
    · simp only [turn, verdict_ended hw.action, if_neg (hscope w' List.mem_cons_self), Tree.cut,
        Bool.false_eq_true, if_false, ih]
    · have hfocus : w.focus = {} := by
        cases hf : w.focus with
        | mk scope kept path =>
          have hk := hw.kept
          have hp := hw.path
          rw [hf] at hk hp hnone
          simp_all
      have hended := verdict_ended hw.action t { w.focus with scope := some x } x
      simp only [if_true] at hended
      simp only [turn, hended, Tree.cut, Bool.false_eq_true, if_false, ih]
      rw [← hfocus]

/-! ## Tours -/

section Tours

variable {ids rest : List NodeId} {events later inside : List Event} {gone gone' : List NodeId}
  {id : NodeId}

/-- Nothing that covers the nodes is gone yet, nor any of them or below them, and the workers have
the scopes they have to have there. -/
structure Live (T : Tree) (S : NodeId → Prop) (p : NodeId) (ids gone : List NodeId)
    (crew : List Worker) : Prop where
  above : ∀ a, T.Covers a p → a ∉ gone
  below : ∀ x, T.Under ids x → x ∉ gone
  apt : ∀ w ∈ crew, w.Apt T S p

/-- Of the nodes and what is below them, those are gone that the rules take out, and perhaps more
below them. -/
def Cleared (T : Tree) (S : NodeId → Prop) (ids gone : List NodeId) (rules : List ElementRule) :
    Prop :=
  ∀ x, T.Under ids x → (∀ a, T.Above a x → a ∉ gone) →
    (x ∈ gone ↔ ∃ r ∈ rules, r.Removes T S x)

/-- Played to removers, the events leave them as they were. What they take out is among the nodes,
the children of `p`, or below; and where these are live, it is what they have to take out. -/
def Clears (T : Tree) (S : NodeId → Prop) (p : NodeId) (ids : List NodeId) (events : List Event) :
    Prop :=
  ∀ t gone crew, Tree.Pruned gone T t → Removers T ids crew →
    ∃ t' gone', play events (t, crew) = (t', crew) ∧ Tree.Pruned gone' T t' ∧
      (∀ x ∈ gone, x ∈ gone') ∧ (∀ x ∈ gone', x ∈ gone ∨ T.Under ids x) ∧
      (Live T S p ids gone crew → Cleared T S ids gone' (crew.map (·.rule)))

theorem Removers.mono (h : Removers T ids crew) (hsub : ∀ x, T.Under rest x → T.Under ids x) :
    Removers T rest crew where
  removers := h.removers
  outside w hw s hs hunder := h.outside w hw s hs (hsub s hunder)

theorem Removers.entered (h : Removers T [x] crew) (hl : T.Linked)
    (hentered : List.Forall₂ (Worker.Entered x) crew crew') : Removers T (T.children x) crew' := by
  have hworker : ∀ w' ∈ crew', ∃ w ∈ crew, w.Entered x w' := by
    clear h
    induction hentered with
    | nil => simp
    | cons h _ ih =>
      intro w' hw'
      rcases List.mem_cons.mp hw' with rfl | hw'
      · exact ⟨_, List.mem_cons_self, h⟩
      · obtain ⟨w, hw, h⟩ := ih w' hw'
        exact ⟨w, .tail _ hw, h⟩
  refine ⟨fun w' hw' => ?_, fun w' hw' s hs hunder => ?_⟩
  · obtain ⟨w, hw, rfl | ⟨-, rfl⟩⟩ := hworker w' hw'
    · exact h.removers _ hw
    · obtain ⟨haction, hkept, hpath⟩ := h.removers w hw
      exact ⟨haction, hkept, hpath⟩
  · rw [hl.under_children] at hunder
    obtain ⟨w, hw, rfl | ⟨-, rfl⟩⟩ := hworker w' hw'
    · exact h.outside _ hw s hs (Tree.under_singleton.mpr (.inr hunder))
    · cases hs
      exact hl.acyclic _ hunder

theorem clears_nil : Clears T S p [] [] :=
  fun t gone _ hpruned _ => ⟨t, gone, rfl, hpruned, fun _ h => h, fun _ h => .inl h,
    fun _ _ hx => absurd hx Tree.not_under_nil⟩

theorem clears_text (hl : T.Linked) {s : String} (htext : T.text? id = some s) :
    Clears T S p [id] [⟨.textCreated, id⟩] := by
  intro t gone crew hpruned hcrew
  refine ⟨t, gone, ?_, hpruned, fun _ h => h, fun _ h => .inl h, fun hlive x hx _ => ?_⟩
  · rw [play_cons, turn_text hcrew.removers]
    rfl
  · refine iff_of_false (hlive.below x hx) ?_
    rintro ⟨r, -, -, hpicks, -⟩
    rw [Tree.under_singleton, hl.covers_text htext] at hx
    exact Tree.not_isElement_of_text? htext (hx ▸ picks_isElement hpicks)

/-- What is below one child and what is below its later siblings is cleared one after the other. -/
theorem Clears.cons (hl : T.Linked) (hids : ∀ x ∈ id :: rest, T.parent? x = some p)
    (hnodup : (id :: rest).Nodup) (h : Clears T S p [id] events) (hrest : Clears T S p rest later) :
    Clears T S p (id :: rest) (events ++ later) := by
  intro t gone crew hpruned hcrew
  have hfirst : ∀ {x}, T.Under [id] x → T.Under (id :: rest) x := fun hx =>
    Tree.under_cons.mpr (.inl (Tree.under_singleton.mp hx))
  have hlater : ∀ {x}, T.Under rest x → T.Under (id :: rest) x := fun hx =>
    Tree.under_cons.mpr (.inr hx)
  obtain ⟨t₁, gone₁, hplay₁, hpruned₁, hsub₁, hnew₁, hclear₁⟩ :=
    h t gone crew hpruned (hcrew.mono fun _ => hfirst)
  obtain ⟨t₂, gone₂, hplay₂, hpruned₂, hsub₂, hnew₂, hclear₂⟩ :=
    hrest t₁ gone₁ crew hpruned₁ (hcrew.mono fun _ => hlater)
  refine ⟨t₂, gone₂, ?_, hpruned₂, fun x hx => hsub₂ x (hsub₁ x hx), fun x hx => ?_,
    fun hlive x hx hfree => ?_⟩
  · rw [play_append, hplay₁, hplay₂]
  · rcases hnew₂ x hx with hx | hx
    · exact (hnew₁ x hx).imp_right hfirst
    · exact .inr (hlater hx)
  · rcases Tree.under_cons.mp hx with hx | hx
    · have hbeside := hl.not_under_of_covers hids hnodup hx
      have hcleared := hclear₁ ⟨hlive.above, fun y hy => hlive.below y (hfirst hy), hlive.apt⟩
      rw [← hcleared x (Tree.under_singleton.mpr hx) fun a ha hmem => hfree a ha (hsub₂ a hmem)]
      exact ⟨fun hmem => (hnew₂ x hmem).resolve_right hbeside, hsub₂ x⟩
    · refine hclear₂ ⟨fun a ha hmem => ?_, fun y hy hmem => ?_, hlive.apt⟩ x hx hfree
      · rcases hnew₁ a hmem with hmem | hcovers
        · exact hlive.above a ha hmem
        · exact hl.not_covers_of_above (.single (hids id List.mem_cons_self))
            ((Tree.under_singleton.mp hcovers).trans ha)
      · rcases hnew₁ y hmem with hmem | hcovers
        · exact hlive.below y (hlater hy) hmem
        · exact hl.not_under_of_covers hids hnodup (Tree.under_singleton.mp hcovers) hy

/-- An element that no rule is told of stays. -/
theorem Clears.wrapper (hl : T.Linked) (hp : T.parent? id = some p) (hsilent : ¬ S id)
    (h : Clears T S id (T.children id) inside) : Clears T S p [id] inside := by
  intro t gone crew hpruned hcrew
  have hinside : ∀ {x}, T.Under (T.children id) x → T.Under [id] x := fun hx =>
    Tree.under_singleton.mpr (.inr (hl.under_children.mp hx))
  obtain ⟨t', gone', hplay, hpruned', hsub, hnew, hclear⟩ :=
    h t gone crew hpruned (hcrew.mono fun _ => hinside)
  refine ⟨t', gone', hplay, hpruned', hsub, fun x hx => (hnew x hx).imp_right hinside,
    fun hlive x hx hfree => ?_⟩
  rcases Tree.under_singleton.mp hx with rfl | hx
  · refine iff_of_false (fun hmem => ?_) ?_
    · rcases hnew _ hmem with hmem | hmem
      · exact hlive.below _ (Tree.under_singleton.mpr (.refl T _)) hmem
      · exact hl.acyclic _ (hl.under_children.mp hmem)
    · rintro ⟨r, -, hS, -⟩
      exact hsilent hS
  · refine hclear ⟨fun a ha => ?_, fun y hy => hlive.below y (hinside hy), fun w hw => ?_⟩ x
      (hl.under_children.mpr hx) hfree
    · rcases (Tree.covers_iff hp).mp ha with rfl | ha
      · exact hlive.below _ (Tree.under_singleton.mpr (.refl T _))
      · exact hlive.above a ha
    · refine ⟨fun s hs => ?_, fun hnone a ha hS => ?_⟩
      · obtain ⟨hcovers, hrest⟩ := (hlive.apt w hw).scope s hs
        exact ⟨hcovers.trans (.inr (.single hp)), hrest⟩
      · rcases (Tree.covers_iff hp).mp ha with rfl | ha
        · exact absurd hS hsilent
        · exact (hlive.apt w hw).idle hnone a ha hS

/-- An element is taken out when it starts, or its inside is cleared. -/
theorem Clears.element (hl : T.Linked) (hp : T.parent? id = some p) (hS : S id)
    (h : Clears T S id (T.children id) inside) :
    Clears T S p [id] (⟨.elementStarted, id⟩ :: inside ++ [⟨.elementEnded, id⟩]) := by
  intro t gone crew hpruned hcrew
  have hself : T.Under [id] id := Tree.under_singleton.mpr (.refl T id)
  have hinside : ∀ {x}, T.Under (T.children id) x → T.Under [id] x := fun hx =>
    Tree.under_singleton.mpr (.inr (hl.under_children.mp hx))
  have hnotself : ¬ T.Under (T.children id) id := fun hx =>
    hl.acyclic id (hl.under_children.mp hx)
  obtain ⟨out, crew', hturn, hentered, hstart⟩ := turn_started (S := S) (p := p) hl
    hcrew.removers t id
  have hrules : crew'.map (·.rule) = crew.map (·.rule) := by
    have := rules_turn ⟨.elementStarted, id⟩ t crew
    rwa [hturn] at this
  obtain ⟨t', gone', hplay, hpruned', hsub, hnew, hclear⟩ :=
    h _ _ crew' (hpruned.cut hl id out) (hcrew.entered hl hentered)
  have hended := turn_ended hcrew.removers
    (fun w hw hscope => hcrew.outside w hw id hscope hself) hentered t'
  refine ⟨t', gone', ?_, hpruned', fun x hx => hsub x ?_, fun x hx => ?_, fun hlive => ?_⟩
  · rw [List.cons_append, play_cons, hturn, play_append, hplay, play_cons, hended]
    rfl
  · cases out with
    | false => exact hx
    | true => exact .tail _ hx
  · rcases hnew x hx with hx | hx
    · cases out with
      | false => exact .inl hx
      | true =>
        rcases List.mem_cons.mp hx with rfl | hx
        · exact .inr hself
        · exact .inl hx
    · exact .inr (hinside hx)
  · have houtlook : T.SameOutlook t id := by
      refine ⟨hpruned.ancestors_eq hl fun b hb => ?_, fun x _ => hpruned.content x⟩
      rcases (Tree.covers_iff hp).mp hb with rfl | hb
      · exact hlive.below _ hself
      · exact hlive.above b hb
    obtain ⟨hout, hapt⟩ := hstart houtlook hp hS hlive.apt
    intro x hx hfree
    rcases Tree.under_singleton.mp hx with rfl | hx
    · simp only [List.mem_map, exists_exists_and_eq_and, ← hout]
      constructor
      · intro hmem
        have hmem := (hnew _ hmem).resolve_right hnotself
        cases out with
        | false => exact absurd hmem (hlive.below _ hself)
        | true => rfl
      · rintro rfl
        exact hsub _ List.mem_cons_self
    · -- Below the element nothing is to be shown unless it stays.
      cases out with
      | true => exact absurd (hsub id List.mem_cons_self) (hfree id hx)
      | false =>
        rw [← hrules]
        refine hclear ⟨fun a ha => ?_, fun y hy => hlive.below y (hinside hy), hapt rfl⟩ x
          (hl.under_children.mpr hx) hfree
        rcases (Tree.covers_iff hp).mp ha with rfl | ha
        · exact hlive.below _ hself
        · exact hlive.above a ha

/-- A tour of children is cleared, one child after the other. -/
theorem clears_tour (hl : T.Linked) (h : Tour T S ids events) (hids : ∀ x ∈ ids, T.parent? x = some p)
    (hnodup : ids.Nodup) : Clears T S p ids events :=
  h.children_induction (P := Clears T S) hl (fun _ => clears_nil)
    (fun hids hnodup _ _ hfirst hrest => hfirst.cons hl hids hnodup hrest)
    (fun _ htext => clears_text hl htext) (fun hp _ hS hinside => hinside.element hl hp hS)
    (fun hp _ hsilent hinside => hinside.wrapper hl hp hsilent) hids hnodup

end Tours

/-! ## Documents -/

section Documents

variable {ω : Type} {rules : List ElementRule} {gone : List NodeId}

theorem mem_removed {elements : List NodeId} :
    x ∈ removed rules t elements ↔ ∃ r ∈ rules, r.Removes t (· ∈ elements) x := by
  simp only [removed, List.mem_filter, decide_eq_true_eq, and_iff_right_iff_imp]
  rintro ⟨r, -, hx, -⟩
  exact hx

theorem removed_perm {rules' : List ElementRule} (h : rules'.Perm rules) (t : Tree)
    (elements : List NodeId) : removed rules' t elements = removed rules t elements := by
  refine List.filter_congr fun x _ => ?_
  simp only [h.mem_iff]

/-- Played to rules that remove, the events of a document clear it from the root on. -/
theorem exists_cleared {log : List Notice} (htoured : Toured t log)
    (hrules : ∀ r ∈ rules, r.action = .remove) :
    ∃ gone, Tree.Pruned gone t (play (log.map (·.event)) (t, crewOf rules)).1 ∧
      (∀ x ∈ gone, t.Above Tree.root x) ∧
      Cleared t (· ∈ nodesOf .elementStarted log) (t.children Tree.root) gone rules := by
  have hl := htoured.linked
  have hclears := clears_tour hl htoured.tour (fun x hx => (hl.mem_children _ x).mp hx)
    (hl.nodup Tree.root)
  have hnew : ∀ w ∈ crewOf rules, w.focus = {} ∧ w.rule.action = .remove := by
    intro w hw
    obtain ⟨r, hr, rfl⟩ := List.mem_map.mp hw
    exact ⟨rfl, hrules r hr⟩
  have hremovers : Removers t (t.children Tree.root) (crewOf rules) := by
    refine ⟨fun w hw => ?_, fun w hw s hs => ?_⟩
    · obtain ⟨hfocus, haction⟩ := hnew w hw
      exact ⟨haction, by rw [hfocus], by rw [hfocus]⟩
    · rw [(hnew w hw).1] at hs
      cases hs
  have hidle : ∀ w ∈ crewOf rules, w.Apt t (· ∈ nodesOf .elementStarted log) Tree.root := by
    refine fun w hw => ⟨fun s hs => ?_, fun _ a ha hS => ?_⟩
    · rw [(hnew w hw).1] at hs
      cases hs
    · -- The document is above no tag.
      obtain rfl := ha.resolve_right
        (Tree.not_above_of_parent?_none (hl.document_top _ htoured.document))
      exact absurd (htoured.above_of_started hS).1 (hl.acyclic _)
  obtain ⟨u, gone, hplay, hpruned, -, hgone, hcleared⟩ :=
    hclears t [] (crewOf rules) (.refl t) hremovers
  rw [rules_crewOf] at hcleared
  refine ⟨gone, by rw [hplay]; exact hpruned, fun x hx => ?_, ?_⟩
  · exact hl.under_children.mp ((hgone x hx).resolve_left (by simp))
  · exact hcleared ⟨fun _ _ => by simp, fun _ _ => by simp, hidle⟩

/-- What is left of a document that has been cleared is the document without what is removed. -/
theorem Cleared.sameBelow {log : List Notice} (htoured : Toured t log) {u : Tree}
    (hpruned : Tree.Pruned gone t u) (hgone : ∀ x ∈ gone, t.Above Tree.root x)
    (h : Cleared t (· ∈ nodesOf .elementStarted log) (t.children Tree.root) gone rules) :
    let rest := t.without (removed rules t (nodesOf .elementStarted log))
    rest.SameBelow u.rooted Tree.root ∧ rest.Linked ∧ u.rooted.Linked := by
  have hl := htoured.linked
  have hroot := Tree.lt_size_of_content? htoured.document
  obtain ⟨html, hhtml⟩ := Option.isSome_iff_exists.mp htoured.root
  have hparent := (hl.mem_children _ _).mp (Tree.documentElement?_eq_some hhtml).1
  simp only [Tree.without, hhtml, Option.any_some, decide_eq_true_eq,
    hpruned.rooted_eq htoured.lone hhtml]
  have hremoved : ∀ x ∈ removed rules t (nodesOf .elementStarted log), t.Above Tree.root x :=
    fun x hx => (htoured.above_of_started (List.mem_filter.mp hx).1).1
  have halike : t.GoneAlike Tree.root gone (removed rules t (nodesOf .elementStarted log)) := by
    intro x hx hfree
    rw [mem_removed]
    refine h x (hl.under_children.mpr hx) fun a ha hmem => ?_
    exact hfree a (hgone a hmem) ha hmem
  generalize removed rules t (nodesOf .elementStarted log) = gone' at hremoved halike ⊢
  have hpruned' := hl.pruned_removeAll gone'
  have hhtml' : html ∈ gone ↔ html ∈ gone' :=
    halike html (.single hparent) fun b hab hb =>
      absurd ((Tree.above_iff_covers hparent).mp hb) (hl.not_covers_of_above hab)
  by_cases hmem : html ∈ gone
  · rw [if_pos hmem, if_pos (hhtml'.mp hmem)]
    have hlt : ∀ x ∈ gone, x.index < t.size := fun x hx => (hgone x hx).lt_size
    have hlt' : ∀ x ∈ gone', x.index < t.size := fun x hx => (hremoved x hx).lt_size
    have hlinked : (t.wrapper Tree.root "HTML").2.Linked := by
      rw [Tree.wrapper_eq]
      exact (hl.grown_attach (.element (.ofTag "HTML")) (by simp) htoured.document (by simp)).1.linked
    have hwrapped := (hpruned.wrapper hl hlt hroot "HTML").2
    have hwrapped' := (hpruned'.wrapper hl hlt' hroot "HTML").2
    have hbegins := Tree.begins_wrapper t Tree.root "HTML"
    exact ⟨hwrapped.sameBelow hwrapped' hlinked
      (halike.begins hl hlinked hbegins hlt hlt'), hwrapped'.linked hlinked,
      hwrapped.linked hlinked⟩
  · rw [if_neg hmem, if_neg fun hmem' => hmem (hhtml'.mpr hmem')]
    exact ⟨hpruned.sameBelow hpruned' hl halike, hpruned'.linked hl, hpruned.linked hl⟩

theorem rendered_congr {u : Tree} (h : t.SameBelow u Tree.root) (hl : t.Linked) (hu : u.Linked) :
    rendered u = rendered t := by
  rw [rendered, rendered, h.documentElement?_eq hl]
  cases hhtml : t.documentElement? with
  | none => rfl
  | some html =>
    have hparent := (hl.mem_children _ _).mp (Tree.documentElement?_eq_some hhtml).1
    exact h.outer_eq hl hu (.inr (.single hparent))

/-- **Rules that remove leave the document without what they remove**, as they find it in the whole
document, and in whatever order they are asked. -/
theorem treeOf_removing {p : Pipeline Focus ω} (hp : Obeys p rules)
    (hrules : ∀ r ∈ rules, r.Supported ∧ r.action = .remove) {q q' : Parser} {input : String}
    (hparse : q.parse input = (.ok t, q')) (hunmoved : Unmoved q'.issues) (memory : ω) :
    let rest := t.without (removed rules t (sourceElements input))
    (∃ u, (p.treeOf memory input).1 = .ok u ∧ rest.SameBelow u Tree.root) ∧
      (p.process memory input).1 = .ok (rendered rest) ∧
      ∀ (p' : Pipeline Focus ω) rules' memory', rules'.Perm rules → Obeys p' rules' →
        (p'.process memory' input).1 = (p.process memory input).1 := by
  intro rest
  have hmain : ∀ {p : Pipeline Focus ω} {rules' memory}, rules'.Perm rules → Obeys p rules' →
      (∃ u, (p.treeOf memory input).1 = .ok u ∧ rest.SameBelow u Tree.root) ∧
        (p.process memory input).1 = .ok (rendered rest) := by
    intro p rules' memory hperm hp
    have hrules' : ∀ r ∈ rules', r.Supported ∧ r.action = .remove := fun r hr =>
      hrules r (hperm.mem_iff.mp hr)
    have htree := treeOf_eq_play hp (fun r hr => (hrules' r hr).1) hparse hunmoved memory
    have htoured := toured_of_source hparse hunmoved
    obtain ⟨gone, hpruned, hgone, hcleared⟩ :=
      exists_cleared htoured fun r hr => (hrules' r hr).2
    obtain ⟨hsame, hrest, hu⟩ := hcleared.sameBelow htoured hpruned hgone
    rw [removed_perm hperm] at hsame hrest
    refine ⟨⟨_, htree, hsame⟩, ?_⟩
    simp only [Pipeline.process, htree, Except.map, rendered_congr hsame hrest hu]
    rfl
  obtain ⟨htree, hprocess⟩ := hmain (.refl rules) hp
  refine ⟨htree, hprocess, fun p' rules' memory' hperm hp' => ?_⟩
  rw [(hmain hperm hp').2, hprocess]

/-- One rule asks about what another takes out before it, and still their order is no matter. -/
theorem treeOf_removing_aside :
    let rules : List ElementRule :=
      [⟨[⟨[.tag "ASIDE"], [], "aside"⟩, ⟨[.tag "BR"], [], "br"⟩], .remove, none⟩,
        ⟨[⟨[.tag "IMG"], [(.descendant, [.tag "MAIN"])], "main img"⟩], .remove,
          some [⟨[.tag "ASIDE"], [], "aside"⟩]⟩]
    let input := "<main>a<br><aside>b<img>c"
    let output := "<html><body><main>a</main></body></html>"
    ∃ t q', ({} : Parser).parse input = (.ok t, q') ∧ Unmoved q'.issues ∧
      removed rules t (sourceElements input) = [⟨5⟩, ⟨6⟩, ⟨8⟩] ∧
      ((ofRules (rules.map .element)).process () input).1 = .ok output ∧
      ((ofRules (rules.reverse.map .element)).process () input).1 = .ok output := by
  intro rules input output
  have helements : sourceElements input = [⟨1⟩, ⟨5⟩, ⟨6⟩, ⟨8⟩] := by decide +kernel
  have hfound : (({} : Parser).parse input).1.toOption.map (fun t =>
      (removed rules t [⟨1⟩, ⟨5⟩, ⟨6⟩, ⟨8⟩], rendered (t.without [⟨5⟩, ⟨6⟩, ⟨8⟩]))) =
      some ([⟨5⟩, ⟨6⟩, ⟨8⟩], output) := by
    decide +kernel
  have hissues : (({} : Parser).parse input).2.issues = [] := by decide +kernel
  obtain ⟨t, q', hparse, hunmoved, hfound⟩ := exists_parsed hfound hissues
  obtain ⟨hremoved, hrendered⟩ := Prod.mk.inj hfound
  rw [← helements] at hremoved
  have hrules : ∀ r ∈ rules, r.Supported ∧ r.action = .remove := by
    intro r hr
    rcases List.mem_cons.mp hr with rfl | hr
    · exact ⟨⟨by simp [Selector.Supported, Simple.Supported], by simp⟩, rfl⟩
    · obtain rfl := List.mem_singleton.mp hr
      exact ⟨⟨by simp [Selector.Supported, Simple.Supported],
        by simp [Selector.Supported, Simple.Supported]⟩, rfl⟩
  have hp : (ofRules (rules.map .element) : Pipeline Focus Unit).Obeys rules := rfl
  have hp' : (ofRules (rules.reverse.map .element) : Pipeline Focus Unit).Obeys rules.reverse := rfl
  obtain ⟨-, hprocess, hperm⟩ := treeOf_removing hp hrules hparse hunmoved ()
  rw [hremoved, hrendered] at hprocess
  refine ⟨t, q', hparse, hunmoved, hremoved, hprocess, ?_⟩
  rw [hperm _ rules.reverse () rules.reverse_perm hp', hprocess]

end Documents

end Hypertext.Pipeline
