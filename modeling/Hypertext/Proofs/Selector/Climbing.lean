/-
Matching a selector, step by step: which compounds are asked of which ancestors,
and how that ends (`climb_eq_iff`). A comparison without a meaning does no harm
until it is asked of an element that has the attribute.

A climb that succeeds goes the same steps where some `>` have become white space,
since none of them has stopped it (`Ascends.loosened`). One that was stopped goes
on then, and may find the rest, or fail.
-/
import Hypertext.Proofs.Selector.Meaning
import Hypertext.Proofs.Tree.Attributes

namespace Hypertext.Selector

/-! ## Asking in order -/

/-- The first answer that is not the usual one; where there is none, the usual one. -/
def decisive (usual : Answer) (answers : List Answer) : Answer :=
  (answers.find? (· ≠ usual)).getD usual

/-- An unusual answer comes from one place, and before it all answers are as usual. -/
theorem decisive_eq_iff {α : Type} {f : α → Answer} {l : List α} {usual answer : Answer}
    (h : answer ≠ usual) : decisive usual (l.map f) = answer ↔
      ∃ before x after, l = before ++ x :: after ∧ f x = answer ∧ ∀ b ∈ before, f b = usual := by
  have hfind : decisive usual (l.map f) = answer ↔ (l.map f).find? (· ≠ usual) = some answer := by
    rw [decisive]
    cases (l.map f).find? (· ≠ usual) <;> simp [Ne.symm h]
  rw [hfind, List.find?_map, Option.map_eq_some_iff]
  simp only [List.find?_eq_some_iff_append]
  constructor
  · rintro ⟨x, ⟨-, before, after, hl, hbefore⟩, hx⟩
    exact ⟨before, x, after, hl, hx, by simpa using hbefore⟩
  · rintro ⟨before, x, after, rfl, rfl, hbefore⟩
    exact ⟨x, ⟨by simpa using h, before, after, rfl, by simpa using hbefore⟩, rfl⟩

/-- Asking on while the answers are as usual. -/
theorem eq_decisive {α : Type} {f : α → Answer} {usual : Answer} {ask : List α → Answer}
    (hnil : ask [] = usual)
    (hcons : ∀ x l, ask (x :: l) = if f x = usual then ask l else f x) (l : List α) :
    ask l = decisive usual (l.map f) := by
  induction l with
  | nil => exact hnil
  | cons x l ih =>
    rw [hcons, ih]
    by_cases hx : f x = usual <;> simp [decisive, hx]

theorem allMatch_eq_decisive (e : Element) (compound : Compound) :
    allMatch e compound = decisive (.ok true) (compound.map (·.matches e)) := by
  have hnil : allMatch e [] = .ok true := rfl
  refine eq_decisive hnil (fun s rest => ?_) compound
  by_cases h : s.matches e = .ok true
  · simp only [allMatch, h, if_true]
  · rw [if_neg h]
    simp only [allMatch]

theorem anyMatches_eq_decisive (t : Tree) (id : NodeId) (selectors : List Selector) :
    anyMatches t id selectors = decisive (.ok false) (selectors.map (·.matches t id)) := by
  have hnil : anyMatches t id [] = .ok false := rfl
  refine eq_decisive hnil (fun s rest => ?_) selectors
  by_cases h : s.matches t id = .ok false
  · simp only [anyMatches, h, if_true]
  · rw [if_neg h]
    simp only [anyMatches]

/-- Of several selectors the first that does not say no decides. -/
theorem anyMatches_eq_iff {t : Tree} {id : NodeId} {selectors : List Selector} {answer : Answer}
    (h : answer ≠ .ok false) : anyMatches t id selectors = answer ↔ ∃ before s after,
      selectors = before ++ s :: after ∧ s.matches t id = answer ∧
        ∀ b ∈ before, b.matches t id = .ok false := by
  rw [anyMatches_eq_decisive]
  exact decisive_eq_iff h

/-! ## Conditions that cannot be decided -/

/-- There is no telling whether it holds. -/
def Comparison.Meaningless (c : Comparison) : Prop :=
  c = .includesWord ∨ c = .dashMatch

/-- The condition compares as `u` says. -/
def Simple.Makes (u : Unsupported) (s : Simple) : Prop :=
  ∃ expected, s = .hasAttribute (.compare u.name u.comparison expected)

/-- One of the conditions of a selector compares as `u` says. -/
def Makes (u : Unsupported) (s : Selector) : Prop :=
  ∃ compound ∈ s.subject :: s.chain.map (·.2), ∃ x ∈ compound, x.Makes u

/-- The element satisfies the conditions of a compound up to one that compares as `u` says, and has
the attribute. -/
def Compound.Trips (u : Unsupported) (e : Element) (compound : Compound) : Prop :=
  ∃ before s after, compound = before ++ s :: after ∧ (∀ b ∈ before, b.matches e = .ok true) ∧
    s.Makes u ∧ u.comparison.Meaningless ∧ e.attributes.contains u.name = true

section Conditions

variable {t : Tree} {e : Element} {id : NodeId} {u : Unsupported}

/-- A selector that makes none of the comparisons without a meaning makes but others. -/
theorem Supported.not_meaningless {s : Selector} (hs : s.Supported) (h : s.Makes u) :
    ¬ u.comparison.Meaningless := by
  obtain ⟨compound, hcompound, c, hc, expected, rfl⟩ := h
  have hsupported : (Simple.hasAttribute (.compare u.name u.comparison expected)).Supported := by
    rcases List.mem_cons.mp hcompound with rfl | hcompound
    · exact hs.1 _ hc
    · obtain ⟨link, hlink, rfl⟩ := List.mem_map.mp hcompound
      exact hs.2 link hlink _ hc
  exact not_or.mpr (hsupported _ _ _ rfl)

theorem Comparison.holds?_eq_none_iff (c : Comparison) (expected value : String) :
    c.holds? expected value = none ↔ c.Meaningless := by
  cases c <;> simp [holds?, Meaningless]

theorem AttributeTest.matches_eq_error_iff {test : AttributeTest} {attributes : Attributes} :
    test.matches attributes = .error u ↔ (∃ expected, test = .compare u.name u.comparison expected) ∧
      u.comparison.Meaningless ∧ attributes.contains u.name = true := by
  constructor
  · intro h
    cases test with
    | present name =>
      cases hvalue : attributes.get? name <;>
        simp [AttributeTest.matches, AttributeTest.name, hvalue] at h
    | compare name c expected =>
      cases hvalue : attributes.get? name with
      | none => simp [AttributeTest.matches, AttributeTest.name, hvalue] at h
      | some value =>
        cases hc : c.holds? expected value with
        | some b => simp [AttributeTest.matches, AttributeTest.name, hvalue, hc] at h
        | none =>
          obtain rfl : ⟨c, name⟩ = u := by
            simpa [AttributeTest.matches, AttributeTest.name, hvalue, hc] using h
          exact ⟨⟨expected, rfl⟩, (c.holds?_eq_none_iff expected value).mp hc,
            Attributes.contains_iff.mpr ⟨value, hvalue⟩⟩
  · rintro ⟨⟨expected, rfl⟩, hmeaningless, hthere⟩
    obtain ⟨value, hvalue⟩ := Attributes.contains_iff.mp hthere
    have hc := (u.comparison.holds?_eq_none_iff expected value).mpr hmeaningless
    simp only [AttributeTest.matches, AttributeTest.name, hvalue, hc]

theorem Simple.matches_eq_error_iff {s : Simple} : s.matches e = .error u ↔
    s.Makes u ∧ u.comparison.Meaningless ∧ e.attributes.contains u.name = true := by
  cases s with
  | tag | universal | hasClass | hasId => simp [Simple.matches, Makes]
  | hasAttribute test =>
    simp only [Simple.matches, AttributeTest.matches_eq_error_iff, Makes, Simple.hasAttribute.injEq]

theorem Compound.matches_eq_error_iff {compound : Compound} : compound.matches t id = .error u ↔
    ∃ e, t.element? id = some e ∧ compound.Trips u e := by
  cases h : t.element? id with
  | none => simp [Compound.matches, h]
  | some e =>
    have hall : compound.matches t id = allMatch e compound := by rw [Compound.matches, h]
    rw [hall, allMatch_eq_decisive, decisive_eq_iff (by simp)]
    simp only [Simple.matches_eq_error_iff, Option.some.injEq, exists_eq_left', Trips]
    constructor
    · rintro ⟨before, s, after, hsplit, hs, hbefore⟩
      exact ⟨before, s, after, hsplit, hbefore, hs⟩
    · rintro ⟨before, s, after, hsplit, hbefore, hs⟩
      exact ⟨before, s, after, hsplit, hs, hbefore⟩

end Conditions

/-! ## The steps of a climb -/

/-- The compounds still to be found, and the ancestors among which to find them. -/
structure Ascent where
  chain : List (Combinator × Compound)
  ids : List NodeId

inductive Ascent.Step (t : Tree) : Ascent → Ascent → Prop
  | found {combinator compound chain id ids} : Compound.matches t compound id = .ok true →
    Step t ⟨(combinator, compound) :: chain, id :: ids⟩ ⟨chain, ids⟩
  | passed {compound chain id ids} : Compound.matches t compound id = .ok false →
    Step t ⟨(.descendant, compound) :: chain, id :: ids⟩ ⟨(.descendant, compound) :: chain, ids⟩

/-- How an ascent ends. -/
inductive Ascent.Ends (t : Tree) : Ascent → Answer → Prop
  | complete {ids} : Ends t ⟨[], ids⟩ (.ok true)
  | exhausted {link chain} : Ends t ⟨link :: chain, []⟩ (.ok false)
  | stranger {compound chain id ids} : Compound.matches t compound id = .ok false →
    Ends t ⟨(.child, compound) :: chain, id :: ids⟩ (.ok false)
  | failed {combinator compound chain id ids u} : Compound.matches t compound id = .error u →
    Ends t ⟨(combinator, compound) :: chain, id :: ids⟩ (.error u)

abbrev Ascends (t : Tree) : Ascent → Ascent → Prop :=
  Relation.ReflTransGen (Ascent.Step t)

/-- To match a node with a selector, a node is asked for a compound. -/
inductive Asked (t : Tree) (s : Selector) (id : NodeId) : Compound → NodeId → Prop
  | subject : Asked t s id s.subject id
  | ancestor {combinator compound chain x ids} : Compound.matches t s.subject id = .ok true →
    Ascends t ⟨s.chain, t.ancestors id⟩ ⟨(combinator, compound) :: chain, x :: ids⟩ →
    Asked t s id compound x

section Climb

variable {t : Tree} {a b : Ascent} {chain : List (Combinator × Compound)} {ids : List NodeId}
  {answer : Answer}

theorem Ascent.Step.climb_eq (h : a.Step t b) : climb t a.chain a.ids = climb t b.chain b.ids := by
  cases h with
  | found h => simp only [climb, h]
  | passed h => simp only [climb, h]

theorem Ascends.climb_eq (h : Ascends t a b) : climb t a.chain a.ids = climb t b.chain b.ids := by
  induction h with
  | refl => rfl
  | tail _ hstep ih => exact ih.trans hstep.climb_eq

theorem Ascent.Ends.climb_eq (h : a.Ends t answer) : climb t a.chain a.ids = answer := by
  cases h with
  | complete => rw [climb]
  | exhausted => rw [climb]
  | stranger h => simp only [climb, h]
  | failed h => simp only [climb, h]

/-- Every climb ends, by induction on the ancestors: each step leaves one behind. -/
theorem exists_end (t : Tree) (chain : List (Combinator × Compound)) (ids : List NodeId) :
    ∃ b, Ascends t ⟨chain, ids⟩ b ∧ b.Ends t (climb t chain ids) := by
  induction ids generalizing chain with
  | nil =>
    cases chain with
    | nil => exact ⟨_, .refl, .complete⟩
    | cons link chain => exact ⟨_, .refl, .exhausted⟩
  | cons id ids ih =>
    cases chain with
    | nil => exact ⟨_, .refl, by rw [climb]; exact .complete⟩
    | cons link chain =>
      obtain ⟨combinator, compound⟩ := link
      cases h : Compound.matches t compound id with
      | error u => exact ⟨_, .refl, by simpa only [climb, h] using .failed h⟩
      | ok found =>
        cases found with
        | true =>
          obtain ⟨b, hrun, hend⟩ := ih chain
          exact ⟨b, .head (.found h) hrun, by simpa only [climb, h] using hend⟩
        | false =>
          cases combinator with
          | child => exact ⟨_, .refl, by simpa only [climb, h] using .stranger h⟩
          | descendant =>
            obtain ⟨b, hrun, hend⟩ := ih ((.descendant, compound) :: chain)
            exact ⟨b, .head (.passed h) hrun, by simpa only [climb, h] using hend⟩

theorem climb_eq_iff : climb t chain ids = answer ↔
    ∃ b, Ascends t ⟨chain, ids⟩ b ∧ b.Ends t answer := by
  constructor
  · rintro rfl
    exact exists_end t chain ids
  · rintro ⟨b, hrun, hend⟩
    exact hrun.climb_eq.trans hend.climb_eq

theorem Ascent.Step.suffix (h : a.Step t b) : b.chain <:+ a.chain ∧ b.ids <:+ a.ids := by
  cases h with
  | found => exact ⟨List.suffix_cons _ _, List.suffix_cons _ _⟩
  | passed => exact ⟨List.suffix_refl _, List.suffix_cons _ _⟩

/-- What is still to come was there from the beginning. -/
theorem Ascends.suffix (h : Ascends t a b) : b.chain <:+ a.chain ∧ b.ids <:+ a.ids := by
  induction h with
  | refl => exact ⟨List.suffix_refl _, List.suffix_refl _⟩
  | tail _ hstep ih => exact ⟨hstep.suffix.1.trans ih.1, hstep.suffix.2.trans ih.2⟩

/-- A node fails to be matched where one that is asked for a compound fails. -/
theorem matches_eq_error_iff {s : Selector} {id : NodeId} {u : Unsupported} :
    s.matches t id = .error u ↔
      ∃ compound x, Asked t s id compound x ∧ Compound.matches t compound x = .error u := by
  rw [Selector.matches]
  constructor
  · intro h
    split at h
    · next hsubject =>
      obtain ⟨b, hrun, hend⟩ := climb_eq_iff.mp h
      cases hend with
      | failed h => exact ⟨_, _, .ancestor hsubject hrun, h⟩
    · exact ⟨_, _, .subject, h⟩
  · rintro ⟨compound, x, hasked, h⟩
    cases hasked with
    | subject => rw [h]
    | ancestor hsubject hrun =>
      rw [hsubject]
      exact climb_eq_iff.mpr ⟨_, hrun, .failed h⟩

/-- Only the compounds of the selector are asked for, and only of the node and its ancestors. -/
theorem Asked.within {s : Selector} {id x : NodeId} {compound : Compound}
    (h : Asked t s id compound x) :
    compound ∈ s.subject :: s.chain.map (·.2) ∧ (x = id ∨ t.Above x id) := by
  cases h with
  | subject => exact ⟨List.mem_cons_self, .inl rfl⟩
  | ancestor _ hrun =>
    obtain ⟨hchain, hids⟩ := hrun.suffix
    have hcompound : compound ∈ s.chain.map (·.2) :=
      List.mem_map.mpr ⟨_, hchain.subset List.mem_cons_self, rfl⟩
    obtain ⟨p, hp, hx⟩ := Tree.mem_chain (hids.subset List.mem_cons_self)
    exact ⟨.tail _ hcompound, .inr (Tree.above_iff.mpr ⟨p, hp, hx⟩)⟩

/-- What is not an element is not matched. -/
theorem matches_of_element?_none {id : NodeId} (h : t.element? id = none) (s : Selector) :
    s.matches t id = .ok false := by
  simp only [Selector.matches, Compound.matches, h]

/-- A selector that fails makes the comparison, and the node or one of its ancestors is an element
that has the attribute. -/
theorem makes_of_matches_eq_error {s : Selector} {id : NodeId} {u : Unsupported}
    (h : s.matches t id = .error u) : u.comparison.Meaningless ∧ s.Makes u ∧
      ∃ x e, (x = id ∨ t.Above x id) ∧ t.element? x = some e ∧
        e.attributes.contains u.name = true := by
  obtain ⟨compound, x, hasked, h⟩ := matches_eq_error_iff.mp h
  obtain ⟨e, he, before, c, after, rfl, -, hmakes, hmeaningless, hthere⟩ :=
    Compound.matches_eq_error_iff.mp h
  exact ⟨hmeaningless, ⟨_, hasked.within.1, c, by simp, hmakes⟩, x, e, hasked.within.2, he, hthere⟩

/-- A selector that makes only comparisons with a meaning is always answered. -/
theorem matches_ok (t : Tree) (id : NodeId) {s : Selector} (hs : s.Supported) :
    ∃ b, s.matches t id = .ok b := by
  cases h : s.matches t id with
  | ok b => exact ⟨b, rfl⟩
  | error u =>
    obtain ⟨hmeaningless, hmakes, -⟩ := makes_of_matches_eq_error h
    exact absurd hmeaningless (hs.not_meaningless hmakes)

end Climb

/-- **Comparisons without a meaning fail only where they are reached.** A selector fails where a node
that is asked for a compound comes to such a comparison. It is one that the selector makes, and the
node or one of its ancestors is an element that has the attribute. So selectors that make none never
fail, and whatever is not an element is just not matched. Of several selectors the first that matches
or fails decides, where all before it do not match. -/
theorem failures_reached (t : Tree) (id : NodeId) :
    (∀ (s : Selector) (u : Unsupported), s.matches t id = .error u ↔
      ∃ compound x e, Asked t s id compound x ∧ t.element? x = some e ∧ compound.Trips u e) ∧
    (∀ (s : Selector) (u : Unsupported), s.matches t id = .error u →
      u.comparison.Meaningless ∧ s.Makes u ∧ ∃ x e, (x = id ∨ t.Above x id) ∧
        t.element? x = some e ∧ e.attributes.contains u.name = true) ∧
    (∀ s : Selector, s.Supported → ∃ b, s.matches t id = .ok b) ∧
    (∀ s : Selector, t.node? id = none ∨ t.content? id = some .document ∨
      (∃ text, t.content? id = some (.text text)) → s.matches t id = .ok false) ∧
    ∀ selectors : List Selector,
      (anyMatches t id selectors = .ok true ↔ ∃ before s after, selectors = before ++ s :: after ∧
        s.matches t id = .ok true ∧ ∀ b ∈ before, b.matches t id = .ok false) ∧
      ∀ u, anyMatches t id selectors = .error u ↔ ∃ before s after,
        selectors = before ++ s :: after ∧ s.matches t id = .error u ∧
          ∀ b ∈ before, b.matches t id = .ok false := by
  refine ⟨fun s u => ?_, fun s u => makes_of_matches_eq_error, fun s => matches_ok t id,
    fun s hnot => matches_of_element?_none ?_ s, fun selectors =>
      ⟨anyMatches_eq_iff (by simp), fun u => anyMatches_eq_iff (by simp)⟩⟩
  · simp only [matches_eq_error_iff, Compound.matches_eq_error_iff, exists_and_left]
  · rcases hnot with h | h | ⟨text, h⟩
    · simp [Tree.element?, Tree.content?, h]
    · simp [Tree.element?, h]
    · simp [Tree.element?, h]

/-- The paragraph is not asked for `lang`; its parent has it. -/
theorem failures_reached_parent :
    let t := Tree.empty.mutateAll [.createElement "div", .append Tree.root ⟨1⟩,
      .createElement "p", .append ⟨1⟩ ⟨4⟩, .createText "x", .append ⟨4⟩ ⟨5⟩,
      .editAttributes ⟨1⟩ (·.set "lang" "en")]
    let test : Simple := .hasAttribute (.compare "lang" .dashMatch "en")
    let s : Selector := ⟨[.tag "P"], [(.descendant, [.tag "DIV", test])], "div[lang|=en] p"⟩
    let plain : Selector := ⟨[.tag "P"], [], "p"⟩
    t.Linked ∧ s.matches t ⟨4⟩ = .error ⟨.dashMatch, "lang"⟩ ∧ s.Makes ⟨.dashMatch, "lang"⟩ ∧
      (∃ x e, (x = ⟨4⟩ ∨ t.Above x ⟨4⟩) ∧ t.element? x = some e ∧
        e.attributes.contains "lang" = true) ∧
      plain.Supported ∧ (∃ b, plain.matches t ⟨4⟩ = .ok b) ∧
      t.content? ⟨5⟩ = some (.text "x") ∧ s.matches t ⟨5⟩ = .ok false ∧
      anyMatches t ⟨4⟩ [plain, s] = .ok true ∧
      anyMatches t ⟨4⟩ [s, plain] = .error ⟨.dashMatch, "lang"⟩ := by
  intro t test s plain
  have hfails : s.matches t ⟨4⟩ = .error ⟨.dashMatch, "lang"⟩ := by decide +kernel
  have hplain : plain.matches t ⟨4⟩ = .ok true := by decide +kernel
  have hsupported : plain.Supported := by simp [plain, Supported, Simple.Supported]
  have htext : t.content? ⟨5⟩ = some (.text "x") := by decide +kernel
  obtain ⟨-, hreached, hok, -, hany⟩ := failures_reached t ⟨4⟩
  obtain ⟨-, hmakes, hthere⟩ := hreached s _ hfails
  have hnot := (failures_reached t ⟨5⟩).2.2.2.1 s (.inr (.inr ⟨"x", htext⟩))
  exact ⟨Tree.linked_empty.mutateAll _, hfails, hmakes, hthere, hsupported, hok plain hsupported,
    htext, hnot, (hany [plain, s]).1.mpr ⟨[], plain, [s], rfl, hplain, by simp⟩,
    ((hany [s, plain]).2 _).mpr ⟨[], s, [plain], rfl, hfails, by simp⟩⟩

/-! ## White space for `>` -/

/-- The same compound, joined as before or by white space instead of `>`. -/
def LooserLink (link link' : Combinator × Compound) : Prop :=
  link'.2 = link.2 ∧ (link'.1 = link.1 ∨ link.1 = .child ∧ link'.1 = .descendant)

/-- Some of the `>` of a selector have become white space. -/
structure Looser (s s' : Selector) : Prop where
  subject : s'.subject = s.subject
  chain : List.Forall₂ LooserLink s.chain s'.chain

section Looser

variable {t : Tree} {a b : Ascent} {chain chain' : List (Combinator × Compound)}

theorem Ascent.Step.loosened (h : a.Step t b) (hchain : List.Forall₂ LooserLink a.chain chain) :
    ∃ chain', Step t ⟨chain, a.ids⟩ ⟨chain', b.ids⟩ ∧ List.Forall₂ LooserLink b.chain chain' := by
  cases h with
  | found h =>
    obtain ⟨⟨combinator, compound⟩, chain', hlink, hrest, rfl⟩ := List.forall₂_cons_left_iff.mp hchain
    obtain ⟨rfl, -⟩ := hlink
    exact ⟨chain', .found h, hrest⟩
  | passed h =>
    obtain ⟨⟨combinator, compound⟩, chain', hlink, hrest, rfl⟩ := List.forall₂_cons_left_iff.mp hchain
    obtain ⟨rfl, hcombinator⟩ := hlink
    obtain rfl : combinator = .descendant := by simpa using hcombinator
    exact ⟨_, .passed h, .cons ⟨rfl, .inl rfl⟩ hrest⟩

/-- The looser climb goes the same steps, along the same ancestors. -/
theorem Ascends.loosened (h : Ascends t a b) (hchain : List.Forall₂ LooserLink a.chain chain) :
    ∃ chain', Ascends t ⟨chain, a.ids⟩ ⟨chain', b.ids⟩ ∧
      List.Forall₂ LooserLink b.chain chain' := by
  induction h with
  | refl => exact ⟨chain, .refl, hchain⟩
  | tail _ hstep ih =>
    obtain ⟨chain', hrun, hchain'⟩ := ih
    obtain ⟨chain'', hstep', hchain''⟩ := hstep.loosened hchain'
    exact ⟨chain'', hrun.tail hstep', hchain''⟩

theorem climb_of_looser (hchain : List.Forall₂ LooserLink chain chain') {ids : List NodeId}
    (h : climb t chain ids = .ok true) : climb t chain' ids = .ok true := by
  obtain ⟨⟨last, rest⟩, hrun, hend⟩ := climb_eq_iff.mp h
  obtain ⟨last', hrun', hlast⟩ := hrun.loosened hchain
  cases hend with
  | complete =>
    obtain rfl := List.forall₂_nil_left_iff.mp hlast
    exact climb_eq_iff.mpr ⟨_, hrun', .complete⟩

end Looser

/-- **White space for `>` loses no match.** What matches a selector also matches each one in which
some of its `>` have become white space. -/
theorem matches_of_looser {s s' : Selector} (h : Looser s s') {t : Tree} {id : NodeId}
    (hmatches : s.matches t id = .ok true) : s'.matches t id = .ok true := by
  rw [Selector.matches] at hmatches ⊢
  rw [h.subject]
  split at hmatches
  · next hsubject => exact climb_of_looser h.chain hmatches
  · next hother => exact absurd hmatches hother

/-- Under `body > div > p`. -/
theorem matches_of_looser_paragraph :
    let t := Tree.empty.mutateAll [.createElement "div", .append Tree.root ⟨1⟩,
      .createElement "p", .append ⟨1⟩ ⟨4⟩]
    let s : Selector := ⟨[.tag "P"], [(.child, [.tag "DIV"]), (.child, [.tag "BODY"])],
      "body > div > p"⟩
    let s' : Selector := ⟨[.tag "P"], [(.child, [.tag "DIV"]), (.descendant, [.tag "BODY"])],
      "body div > p"⟩
    t.Linked ∧ Looser s s' ∧ s.matches t ⟨4⟩ = .ok true ∧ s'.matches t ⟨4⟩ = .ok true := by
  intro t s s'
  have hlooser : Looser s s' :=
    ⟨rfl, .cons ⟨rfl, .inl rfl⟩ (.cons ⟨rfl, .inr ⟨rfl, rfl⟩⟩ .nil)⟩
  have hmatches : s.matches t ⟨4⟩ = .ok true := by decide +kernel
  exact ⟨Tree.linked_empty.mutateAll _, hlooser, hmatches, matches_of_looser hlooser hmatches⟩

end Hypertext.Selector
