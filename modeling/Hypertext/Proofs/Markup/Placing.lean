/-
Where new nodes are placed. A text goes under the innermost open element, and
so does an element, in the shelter that it is given there (`sprout`); only an
element after the root is moved. A document without such an element is unmoved,
and it can be told from its issues, which are never taken back.
-/
import Hypertext.Proofs.Markup.Events
import Hypertext.Proofs.Markup.Growing
import Hypertext.Proofs.Markup.Reaching

namespace Hypertext

/-- The tree, with a document element of its own if it had none. -/
def Tree.rooted (t : Tree) : Tree :=
  if t.documentElement?.isSome then t else (t.wrapper Tree.root "HTML").2

namespace Markup

/-- No element was moved into the document element. -/
def Unmoved (issues : List Issue) : Prop :=
  ∀ i ∈ issues, ∀ tag, i.oddity ≠ .movedIntoRoot tag

theorem Unmoved.of_prefix {issues issues' : List Issue} (h : Unmoved issues')
    (hearlier : issues <+: issues') : Unmoved issues :=
  fun i hi => h i (hearlier.subset hi)

namespace Growth

variable {ω : Type} {observer : Observer ω} {g : Growth ω}

/-- The innermost of the open elements, or the document. -/
def top (os : List OpenElement) : NodeId :=
  (os.head?.map (·.id)).getD Tree.root

@[simp] theorem top_cons (o : OpenElement) (os : List OpenElement) : top (o :: os) = o.id := rfl

theorem innermost_eq_top (g : Growth ω) : g.innermost = top g.stack := rfl

theorem Standing.top_holds {os : List OpenElement} {t : Tree} (h : Standing os t) :
    ∃ c, t.content? (top os) = some c ∧ ∀ s, c ≠ .text s := by
  cases os with
  | nil => exact ⟨.document, h.root, by simp⟩
  | cons o os => exact h.holds o List.mem_cons_self

/-! ## Issues stay -/

theorem issues_takeStart (index : Nat) (tag : String) (attributes : List Attribute) (g : Growth ω) :
    (place index (g.tree.create (.element (.ofSource tag attributes))).1 tag
      { g with tree := (g.tree.create (.element (.ofSource tag attributes))).2 }).1.issues =
      (g.takeStart observer index tag attributes).issues := by
  simp only [takeStart]
  split
  · next h => rw [h]
  · next h =>
    rw [h]
    split <;> rfl

theorem issues_takeAll (tokens : List (Nat × Token)) (g : Growth ω) :
    g.issues <+: (tokens.foldl (take observer) g).issues :=
  (reaches_foldl reaches_take tokens g).issues

theorem issues_finish (index : Nat) (g : Growth ω) :
    g.issues <+: (g.finish observer index).issues :=
  (reaches_finish index g).issues

/-! ## New nodes -/

theorem takeText_eq (h : Standing g.stack g.tree) (index : Nat) (s : String) :
    g.takeText observer index s = notify observer .textCreated ⟨g.tree.size⟩
      { g with tree := (g.tree.create (.text s)).2.attach g.innermost ⟨g.tree.size⟩ } := by
  obtain ⟨c, hc, htext⟩ := h.top_holds
  rw [← innermost_eq_top] at hc
  simp only [takeText, Tree.create_fst, h.linked.append_new_text hc htext]

/-- The tree with a new element in its shelter under the innermost open one. -/
def sprouted (g : Growth ω) (e : Element) : Tree :=
  let shelter := (g.tree.create (.element e)).2.shelter g.innermost e.tag
  shelter.2.attach shelter.1 ⟨g.tree.size⟩

/-- The growth with a new element, and with what shelters it opened. -/
def sprout (g : Growth ω) (e : Element) : Growth ω :=
  openBetween ⟨g.tree.size⟩ { g with tree := g.sprouted e }

theorem sprout_eq (g : Growth ω) (e : Element) :
    g.sprout e = { g with
      tree := g.sprouted e
      stack := (((g.sprouted e).ancestors ⟨g.tree.size⟩).takeWhile (· ≠ top g.stack)).map
        (⟨·, false⟩) ++ g.stack } := rfl

/-- The new element would come beside the document element. -/
def Late (g : Growth ω) : Prop :=
  g.innermost = Tree.root ∧ g.tree.documentElement?.isSome = true

theorem place_eq_sprouted (h : Standing g.stack g.tree) (hlate : ¬ g.Late) (index : Nat)
    (tag : String) (e : Element) :
    place index ⟨g.tree.size⟩ tag { g with tree := (g.tree.create (.element e)).2 } =
      ({ g with tree := g.sprouted e }, true) := by
  obtain ⟨c, hc, htext⟩ := h.top_holds
  rw [← innermost_eq_top] at hc
  have hinner : innermost { g with tree := (g.tree.create (.element e)).2 } = g.innermost := rfl
  have happend := h.linked.append_new_element hc htext e
  rw [Late] at hlate
  rw [Tree.documentElement?_create h.linked, if_neg hlate] at happend
  simp only [place, hinner, happend, sprouted]

/-- An element that is not late starts in its shelter. -/
theorem takeStart_eq (h : Standing g.stack g.tree) (hlate : ¬ g.Late) (index : Nat) (tag : String)
    (attributes : List Attribute) :
    g.takeStart observer index tag attributes =
      let id : NodeId := ⟨g.tree.size⟩
      let started := notify observer .elementStarted id (g.sprout (.ofSource tag attributes))
      if isVoid tag then notify observer .elementEnded id started
      else { started with stack := ⟨id, true⟩ :: started.stack } := by
  simp only [takeStart, Tree.create_fst, place_eq_sprouted h hlate index tag, sprout]

/-! ## Late elements -/

instance (g : Growth ω) : Decidable g.Late :=
  inferInstanceAs (Decidable (_ ∧ _))

/-- What a new element goes under, the innermost first. A late one goes into the `BODY`, or failing
that into the root. -/
def hosts (g : Growth ω) : List OpenElement :=
  if g.Late then ((g.tree.body?.or g.tree.documentElement?).map (⟨·, false⟩)).toList else g.stack

/-- The growth with a new element in its place. -/
def hosted (g : Growth ω) (index : Nat) (tag : String) (e : Element) : Growth ω where
  tree := { g with stack := g.hosts }.sprouted e
  stack := g.stack
  issues := if g.Late then g.issues ++ [⟨index, .movedIntoRoot tag⟩] else g.issues
  memory := g.memory

section Hosted

variable (g) (index : Nat) (tag : String) (e : Element)

theorem tree_hosted : (g.hosted index tag e).tree = { g with stack := g.hosts }.sprouted e := by
  rw [hosted]

@[simp] theorem stack_hosted : (g.hosted index tag e).stack = g.stack := by
  rw [hosted]

@[simp] theorem memory_hosted : (g.hosted index tag e).memory = g.memory := by
  rw [hosted]

end Hosted

theorem section?_create {t : Tree} (hl : t.Linked) (content : Content) (tag : String) :
    (t.create content).2.section? tag = t.section? tag := by
  rw [Tree.section?, Tree.documentElement?_create hl, Tree.section?]
  refine congrArg t.documentElement?.bind (funext fun html => ?_)
  rw [Tree.children_create]
  refine List.find?_congr fun id hid => ?_
  rw [Tree.tag?, Tree.element?_create_of_lt (hl.child_lt_size hid), Tree.tag?]

/-- A late element finds an element to be moved to. -/
theorem Standing.exists_host (h : Standing g.stack g.tree) (hlate : g.Late) :
    ∃ refuge e, g.tree.body?.or g.tree.documentElement? = some refuge ∧
      g.hosts = [⟨refuge, false⟩] ∧ g.tree.content? refuge = some (.element e) ∧
      refuge ≠ Tree.root := by
  obtain ⟨refuge, p, e, hrefuge, -, he⟩ := exists_refuge hlate.2
  have hcontent := Tree.element?_eq_some.mp he
  refine ⟨refuge, e, hrefuge, by simp [hosts, hlate, hrefuge], hcontent, ?_⟩
  rintro rfl
  cases h.root.symm.trans hcontent

theorem Standing.hosts (h : Standing g.stack g.tree) : Standing g.hosts g.tree := by
  by_cases hlate : g.Late
  · obtain ⟨refuge, e, -, hhosts, hcontent, -⟩ := h.exists_host hlate
    rw [hhosts]
    exact ⟨h.linked, h.root, by simp [hcontent]⟩
  · rw [Growth.hosts, if_neg hlate]
    exact h

theorem place_eq_hosted (h : Standing g.stack g.tree) (index : Nat) (tag : String) (e : Element) :
    place index ⟨g.tree.size⟩ tag { g with tree := (g.tree.create (.element e)).2 } =
      (g.hosted index tag e, true) := by
  by_cases hlate : g.Late
  · obtain ⟨refuge, e', hrefuge, hhosts, hcontent, hne⟩ := h.exists_host hlate
    obtain ⟨c, hc, htext⟩ := h.top_holds
    rw [← innermost_eq_top] at hc
    have hinner : innermost { g with tree := (g.tree.create (.element e)).2 } = g.innermost := rfl
    have hsecond := h.linked.append_new_element hc htext e
    have hlate' := hlate
    rw [Late] at hlate'
    rw [Tree.documentElement?_create h.linked, if_pos hlate'] at hsecond
    have hrescue := h.linked.append_new_element hcontent (by simp) e
    rw [if_neg fun hr => hne hr.1] at hrescue
    simp only [place, hinner, hsecond, Tree.body?, section?_create h.linked,
      Tree.documentElement?_create h.linked]
    rw [← Tree.body?, hrefuge]
    simp only [report, hrescue, hosted, if_pos hlate, hhosts]
    rfl
  · simp only [place_eq_sprouted h hlate, hosted, Growth.hosts, if_neg hlate]

/-- Late or not, an element starts in the shelter that it is given. -/
theorem takeStart_eq_hosted (h : Standing g.stack g.tree) (index : Nat) (tag : String)
    (attributes : List Attribute) :
    g.takeStart observer index tag attributes =
      let id : NodeId := ⟨g.tree.size⟩
      let started := notify observer .elementStarted id
        (openBetween id (g.hosted index tag (.ofSource tag attributes)))
      if isVoid tag then notify observer .elementEnded id started
      else { started with stack := ⟨id, true⟩ :: started.stack } := by
  simp only [takeStart, Tree.create_fst, place_eq_hosted h index tag]

/-- Of a late element it is reported that it was moved. -/
theorem not_late (h : Standing g.stack g.tree) {index : Nat} {tag : String}
    {attributes : List Attribute}
    (hunmoved : Unmoved (g.takeStart observer index tag attributes).issues) : ¬ g.Late := by
  intro hlate
  rw [← issues_takeStart, Tree.create_fst, place_eq_hosted h, hosted, if_pos hlate] at hunmoved
  exact hunmoved ⟨index, .movedIntoRoot tag⟩ (by simp) tag rfl

/-! ## Ends -/

/-- What is left to do once all has ended is to give the document a root. -/
theorem finish_eq_rooted (index : Nat) (g : Growth ω)
    (h : Standing [] (g.stack.foldl (announceEnd observer) { g with stack := [] }).tree) :
    g.finish observer index =
      let closed := g.stack.foldl (announceEnd observer) { g with stack := [] }
      { closed with tree := closed.tree.rooted } := by
  simp only [finish, Tree.rooted]
  generalize g.stack.foldl (announceEnd observer) { g with stack := [] } = closed at *
  by_cases hsome : closed.tree.documentElement?.isSome = true
  · simp only [if_pos hsome]
  · have htag : (Element.ofTag "HTML").tag = "HTML" := by decide +kernel
    have happend := h.linked.append_new_element h.root (by simp) (.ofTag "HTML")
    rw [Tree.documentElement?_create h.linked, if_neg fun hr => hsome hr.2, htag] at happend
    have hroot : (closed.tree.create (.element (.ofTag "HTML"))).2.tag? Tree.root = none := by
      rw [Tree.tag?, Tree.element?_create_of_lt (Tree.lt_size_of_content? h.root), Tree.element?, h.root]
      rfl
    simp only [Tree.shelter, hroot, ne_eq, not_true_eq_false, and_false, reduceCtorEq, false_and,
      if_false] at happend
    simp only [if_neg hsome, Tree.create_fst, happend]
    rfl

theorem begins_rooted (t : Tree) : t.Begins t.rooted := by
  rw [Tree.rooted]
  split
  · exact .refl t
  · exact Tree.begins_wrapper t _ _

theorem Standing.rooted {t : Tree} (h : Standing [] t) : Standing [] t.rooted := by
  refine ⟨?_, ?_, by simp⟩
  · rw [Tree.rooted]
    split
    · exact h.linked
    · exact (h.linked.grown_attach (.element (.ofTag "HTML")) (by simp) h.root (by simp)).1.linked
  · exact ((begins_rooted t).content _ (Tree.lt_size_of_content? h.root)).trans h.root

end Growth

end Markup

end Hypertext
