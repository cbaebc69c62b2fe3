/-
What selectors mean, and that matching decides it. The meaning of a selector is
that there are nodes, one for each compound, joined as its combinators say; the
matcher takes the nearest candidate each time and stays with it.

So a node it accepts has the meaning. Where no `>` stands to the left of white
space it accepts all that have (`reaches_of_nearer`): of two candidates for white
space the nearer one has all the ancestors of the other.
-/
import Hypertext.Selector.Matching
import Hypertext.Proofs.Tree.Runs

namespace Hypertext.Selector

/-! ## Meanings -/

/-- What a comparison demands of an attribute's value. -/
def Comparison.Demands (expected value : String) : Comparison → Prop
  | .equals => expected = "" ∨ value = expected
  | .startsWith => expected.toList <+: value.toList
  | .contains => expected.toList <:+: value.toList
  | .endsWith => expected.toList <:+ value.toList
  | .includesWord | .dashMatch => False

def AttributeTest.Holds (attributes : Attributes) : AttributeTest → Prop
  | .present name => (attributes.get? name).isSome = true
  | .compare name comparison expected =>
    ∃ value, attributes.get? name = some value ∧ comparison.Demands expected value

def Simple.Holds (e : Element) : Simple → Prop
  | .tag name => e.tag = name
  | .universal => True
  | .hasClass word => word ∈ e.attributes.classes
  | .hasId value => e.attributes.get? "id" = some value
  | .hasAttribute test => test.Holds e.attributes

/-- The node is an element that satisfies every condition. -/
def Compound.Holds (t : Tree) (compound : Compound) (id : NodeId) : Prop :=
  ∃ e, t.element? id = some e ∧ ∀ s ∈ compound, s.Holds e

/-- How the node for the compound on the left stands to the one for the compound on the right. -/
def Combinator.Joins (t : Tree) (left right : NodeId) : Combinator → Prop
  | .child => t.parent? right = some left
  | .descendant => t.Above left right

/-- From the node on, there are nodes for all compounds of a chain. -/
def Reaches (t : Tree) : List (Combinator × Compound) → NodeId → Prop
  | [], _ => True
  | (combinator, compound) :: chain, id =>
    ∃ up, combinator.Joins t up id ∧ compound.Holds t up ∧ Reaches t chain up

end Selector

open Selector

/-- The node satisfies the subject, and there are nodes for the compounds to its left. -/
def Selector.Means (t : Tree) (s : Selector) (id : NodeId) : Prop :=
  s.subject.Holds t id ∧ Reaches t s.chain id

namespace Selector

/-! ## Two restrictions -/

/-- The condition makes none of the comparisons that have no meaning. -/
def Simple.Supported (s : Simple) : Prop :=
  ∀ name comparison expected, s = .hasAttribute (.compare name comparison expected) →
    comparison ≠ .includesWord ∧ comparison ≠ .dashMatch

/-- No condition of a selector makes such a comparison. -/
def Supported (s : Selector) : Prop :=
  (∀ x ∈ s.subject, x.Supported) ∧ ∀ link ∈ s.chain, ∀ x ∈ link.2, x.Supported

/-- No `>` stands to the left of white space. The chain is read from right to left. -/
def ChildrenFirst (chain : List (Combinator × Compound)) : Prop :=
  chain.Pairwise fun right left => ¬ (right.1 = .descendant ∧ left.1 = .child)

/-! ## Conditions -/

theorem occursIn_iff {part cs : List Char} : occursIn part cs = true ↔ part <:+: cs := by
  induction cs with
  | nil => simp [occursIn]
  | cons c cs ih =>
    rw [occursIn, Bool.or_eq_true, ih, List.isPrefixOf_iff_prefix, List.infix_cons_iff]

theorem Comparison.holds?_iff {c : Comparison} (hw : c ≠ .includesWord) (hd : c ≠ .dashMatch)
    (expected value : String) :
    ∃ b, c.holds? expected value = some b ∧ (b = true ↔ c.Demands expected value) := by
  cases c with
  | equals => exact ⟨_, rfl, by simp [Demands]⟩
  | startsWith => exact ⟨_, rfl, List.isPrefixOf_iff_prefix⟩
  | contains => exact ⟨_, rfl, occursIn_iff⟩
  | endsWith => exact ⟨_, rfl, List.isSuffixOf_iff_suffix⟩
  | includesWord => exact absurd rfl hw
  | dashMatch => exact absurd rfl hd

theorem AttributeTest.matches_iff (attributes : Attributes) {test : AttributeTest}
    (hs : (Simple.hasAttribute test).Supported) :
    ∃ b, test.matches attributes = .ok b ∧ (b = true ↔ test.Holds attributes) := by
  cases test with
  | present name =>
    cases h : attributes.get? name <;>
      simp [AttributeTest.matches, AttributeTest.Holds, AttributeTest.name, h]
  | compare name comparison expected =>
    cases h : attributes.get? name with
    | none => simp [AttributeTest.matches, AttributeTest.Holds, AttributeTest.name, h]
    | some value =>
      obtain ⟨hw, hd⟩ := hs name comparison expected rfl
      obtain ⟨b, hb, hiff⟩ := comparison.holds?_iff hw hd expected value
      refine ⟨b, ?_, ?_⟩
      · simp only [AttributeTest.matches, AttributeTest.name, h, hb]
      · simp [AttributeTest.Holds, h, hiff]

theorem Simple.matches_iff (e : Element) {s : Simple} (hs : s.Supported) :
    ∃ b, s.matches e = .ok b ∧ (b = true ↔ s.Holds e) := by
  cases s with
  | tag name => exact ⟨_, rfl, decide_eq_true_iff⟩
  | universal => exact ⟨_, rfl, by simp [Holds]⟩
  | hasClass word => exact ⟨_, rfl, List.contains_iff_mem⟩
  | hasId value => exact ⟨_, rfl, decide_eq_true_iff⟩
  | hasAttribute test => exact AttributeTest.matches_iff e.attributes hs

theorem allMatch_iff (e : Element) {compound : Compound} (hs : ∀ s ∈ compound, s.Supported) :
    ∃ b, allMatch e compound = .ok b ∧ (b = true ↔ ∀ s ∈ compound, s.Holds e) := by
  induction compound with
  | nil => exact ⟨true, rfl, by simp⟩
  | cons s rest ih =>
    obtain ⟨b, hb, hiff⟩ := Simple.matches_iff e (hs s List.mem_cons_self)
    cases b with
    | false =>
      refine ⟨false, by simp [allMatch, hb], ?_⟩
      simpa using fun h => absurd (hiff.mpr h) (by simp)
    | true =>
      obtain ⟨b, hrest, hiff'⟩ := ih fun s h => hs s (List.mem_cons_of_mem _ h)
      exact ⟨b, by simp [allMatch, hb, hrest], by simp [hiff', ← hiff]⟩

theorem Compound.matches_iff (t : Tree) (id : NodeId) {compound : Compound}
    (hs : ∀ s ∈ compound, s.Supported) :
    ∃ b, Compound.matches t compound id = .ok b ∧ (b = true ↔ compound.Holds t id) := by
  cases h : t.element? id with
  | none => exact ⟨false, by simp [Compound.matches, h], by simp [Holds, h]⟩
  | some e =>
    obtain ⟨b, hb, hiff⟩ := allMatch_iff e hs
    exact ⟨b, by simp [Compound.matches, h, hb], by simp [Holds, h, hiff]⟩

/-! ## Chains -/

section Chain

variable {t : Tree}

theorem not_reaches_of_parent?_none {id : NodeId} {combinator : Combinator} {compound : Compound}
    {chain : List (Combinator × Compound)} (hp : t.parent? id = none) :
    ¬ Reaches t ((combinator, compound) :: chain) id := by
  intro h
  obtain ⟨up, hjoin, -, -⟩ := h
  cases combinator with
  | child => cases hp.symm.trans hjoin
  | descendant =>
    obtain ⟨p, h, -⟩ := Tree.above_iff.mp hjoin
    cases hp.symm.trans h

/-- A parent serves for either combinator. -/
theorem joins_of_parent? {p id : NodeId} (hp : t.parent? id = some p) (combinator : Combinator) :
    combinator.Joins t p id := by
  cases combinator with
  | child => exact hp
  | descendant => exact Tree.above_iff.mpr ⟨p, hp, .inl rfl⟩

theorem reaches_of_above {compound : Compound} {chain : List (Combinator × Compound)}
    {a d : NodeId} (ha : t.Above a d) (h : Reaches t ((.descendant, compound) :: chain) a) :
    Reaches t ((.descendant, compound) :: chain) d := by
  obtain ⟨up, hup, h⟩ := h
  exact ⟨up, Tree.Above.trans hup ha, h⟩

/-- The exchange: after white space, a nearer candidate is as good as any farther one. -/
theorem reaches_of_nearer {right : Combinator × Compound} {chain : List (Combinator × Compound)}
    (hd : right.1 = .descendant) (hc : ChildrenFirst (right :: chain)) {far near : NodeId}
    (ha : t.Above far near) (h : Reaches t chain far) : Reaches t chain near := by
  cases chain with
  | nil => trivial
  | cons left chain =>
    obtain ⟨combinator, compound⟩ := left
    have hleft : combinator = .descendant := by
      have := (List.pairwise_cons.mp hc).1 _ List.mem_cons_self
      cases combinator with
      | descendant => rfl
      | child => exact absurd ⟨hd, rfl⟩ this
    subst hleft
    exact reaches_of_above ha h

/-- What climbing finds, by induction on the way up: the chain is found only where it is, and where
the exchange holds, wherever it is. -/
theorem climb_iff (hl : t.Linked) (id : NodeId) :
    ∀ {chain : List (Combinator × Compound)}, (∀ link ∈ chain, ∀ s ∈ link.2, s.Supported) →
      ∃ b, climb t chain (t.ancestors id) = .ok b ∧ (b = true → Reaches t chain id) ∧
        (ChildrenFirst chain → Reaches t chain id → b = true) := by
  induction id using hl.wellFounded_above.induction with
  | _ id ih =>
    intro chain hs
    cases chain with
    | nil => exact ⟨true, by rw [climb], fun _ => trivial, fun _ _ => rfl⟩
    | cons link chain =>
      obtain ⟨combinator, compound⟩ := link
      cases hp : t.parent? id with
      | none =>
        rw [hl.ancestors_eq, hp]
        exact ⟨false, rfl, by simp, fun _ h => absurd h (not_reaches_of_parent?_none hp)⟩
      | some p =>
        have ihp := @ih p (Tree.above_iff.mpr ⟨p, hp, .inl rfl⟩)
        obtain ⟨b, hb, hholds⟩ := Compound.matches_iff t p (hs _ List.mem_cons_self)
        rw [hl.ancestors_of_parent? hp]
        cases b with
        | true =>
          obtain ⟨b, hclimb, hsound, hcomplete⟩ := ihp fun l h => hs l (List.mem_cons_of_mem _ h)
          refine ⟨b, by simp [climb, hb, hclimb], fun h => ?_, fun hc h => ?_⟩
          · exact ⟨p, joins_of_parent? hp combinator, hholds.mp rfl, hsound h⟩
          · obtain ⟨up, hjoin, -, hup⟩ := h
            refine hcomplete (List.pairwise_cons.mp hc).2 ?_
            cases combinator with
            | child =>
              cases hp.symm.trans hjoin
              exact hup
            | descendant =>
              obtain ⟨q, hq, h⟩ := Tree.above_iff.mp hjoin
              cases hp.symm.trans hq
              rcases h with rfl | h
              · exact hup
              · exact reaches_of_nearer rfl hc h hup
        | false =>
          have hnot : ¬ compound.Holds t p := fun h => absurd (hholds.mpr h) (by simp)
          cases combinator with
          | child =>
            refine ⟨false, by simp [climb, hb], by simp, fun _ h => ?_⟩
            obtain ⟨up, hjoin, hup, -⟩ := h
            cases hp.symm.trans hjoin
            exact absurd hup hnot
          | descendant =>
            obtain ⟨b, hclimb, hsound, hcomplete⟩ := ihp hs
            refine ⟨b, by simp [climb, hb, hclimb], fun h => ?_, fun hc h => hcomplete hc ?_⟩
            · exact reaches_of_above (Tree.above_iff.mpr ⟨p, hp, .inl rfl⟩) (hsound h)
            · obtain ⟨up, hjoin, hup, h⟩ := h
              obtain ⟨q, hq, hor⟩ := Tree.above_iff.mp hjoin
              cases hp.symm.trans hq
              rcases hor with rfl | hor
              · exact absurd hup hnot
              · exact ⟨up, hor, hup, h⟩

end Chain

end Selector

/-! ## Selectors -/

/-- **Matching decides the meaning of a selector.** In a linked tree, and for a selector that makes
only comparisons with a meaning: a node that matches has the meaning; and where no `>` stands to the
left of white space, the nodes that match are those that have it, and the answer for all others is
no. -/
theorem Selector.matches_meaning {t : Tree} (hl : t.Linked) {s : Selector} (hs : s.Supported)
    (id : NodeId) :
    (s.matches t id = .ok true → s.Means t id) ∧
    (ChildrenFirst s.chain → (s.matches t id = .ok true ↔ s.Means t id) ∧
      (¬ s.Means t id → s.matches t id = .ok false)) := by
  obtain ⟨b, hb, hholds⟩ := Compound.matches_iff t id hs.1
  obtain ⟨b', hclimb, hsound, hcomplete⟩ := climb_iff hl id hs.2
  cases b with
  | false =>
    have hmatches : s.matches t id = .ok false := by simp [Selector.matches, hb]
    have hnot : ¬ s.Means t id := fun h => absurd (hholds.mpr h.1) (by simp)
    simp [hmatches, hnot]
  | true =>
    have hmatches : s.matches t id = .ok b' := by simp [Selector.matches, hb, hclimb]
    have hmeans : s.Means t id ↔ Reaches t s.chain id := and_iff_right (hholds.mp rfl)
    rw [hmatches, hmeans]
    cases b' <;> simp_all

/-- Under `body > div > p`, what `body div > p` means and finds. -/
theorem Selector.matches_meaning_paragraph :
    let t := Tree.empty.mutateAll [.createElement "div", .append Tree.root ⟨1⟩,
      .createElement "p", .append ⟨1⟩ ⟨4⟩]
    let s : Selector := ⟨[.tag "P"], [(.child, [.tag "DIV"]), (.descendant, [.tag "BODY"])],
      "body div > p"⟩
    t.Linked ∧ s.Supported ∧ ChildrenFirst s.chain ∧ s.matches t ⟨4⟩ = .ok true ∧
      s.Means t ⟨4⟩ ∧ ¬ s.Means t ⟨1⟩ := by
  intro t s
  have hl : t.Linked := Tree.linked_empty.mutateAll _
  have hs : s.Supported := by simp [s, Supported, Simple.Supported]
  have hc : ChildrenFirst s.chain := by simp [s, ChildrenFirst]
  have hyes : s.matches t ⟨4⟩ = .ok true := by decide +kernel
  have hno : s.matches t ⟨1⟩ ≠ .ok true := by decide +kernel
  exact ⟨hl, hs, hc, hyes, (matches_meaning hl hs ⟨4⟩).1 hyes,
    fun h => hno (((matches_meaning hl hs ⟨1⟩).2 hc).1.mpr h)⟩

end Hypertext
