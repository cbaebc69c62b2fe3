/-
The events of a document are a tour of its tree: each text in its place, and
each element of a start tag as its start, a tour of what is in it, and its end.
Elements that no tag stands for are passed through in silence.

While the document is read the tour is under way (`Underway`): it has come to
the innermost open element, and of each of the open ones it has done all
children but the last. Whatever is placed is placed where the tour stands, so
it never disturbs what was done before (`Underway.grown`).

An element after the root, which is moved back into it, would break the tour;
hence the documents here are unmoved.
-/
import Hypertext.Proofs.Markup.Placing
import Hypertext.Proofs.Tree.Outlook

namespace Hypertext

namespace Tree

variable {t t' : Tree} {parent child : NodeId}

/-- What holds of a parent and a tree, and is kept by wrappers, holds of the shelter. -/
theorem shelter_induction {P : NodeId → Tree → Prop}
    (hwrapper : ∀ p t tag, tag = "HTML" ∨ tag = "BODY" → P p t →
      P (t.wrapper p tag).1 (t.wrapper p tag).2) (tag : String)
    (h : P parent t) : P (t.shelter parent tag).1 (t.shelter parent tag).2 := by
  have hhtml : ∀ p t, P p t → P (t.wrapper p "HTML").1 (t.wrapper p "HTML").2 :=
    fun p t => hwrapper p t "HTML" (.inl rfl)
  have hbody : ∀ p t, P p t → P (t.wrapper p "BODY").1 (t.wrapper p "BODY").2 :=
    fun p t => hwrapper p t "BODY" (.inr rfl)
  simp only [shelter]
  by_cases hroot : parent = root ∧ tag ≠ "HTML"
  · simp only [if_pos hroot]
    split
    · exact hbody _ _ (hhtml _ _ h)
    · exact hhtml _ _ h
  · simp only [if_neg hroot]
    split
    · exact hbody _ _ h
    · exact h

/-- The document has no more than one element as a child. -/
def Lone (t : Tree) : Prop :=
  ∀ a ∈ t.children root, ∀ b ∈ t.children root, t.isElement a = true → t.isElement b = true → a = b

theorem Lone.documentElement?_eq (h : t.Lone) {html : NodeId} :
    t.documentElement? = some html ↔ html ∈ t.children root ∧ t.isElement html = true := by
  refine ⟨documentElement?_eq_some, fun ⟨hmem, helement⟩ => ?_⟩
  obtain ⟨html', hhtml'⟩ := Option.isSome_iff_exists.mp (List.find?_isSome.mpr ⟨html, hmem, helement⟩)
  obtain ⟨hmem', helement'⟩ := documentElement?_eq_some hhtml'
  rw [h html hmem html' hmem' helement helement']
  exact hhtml'

theorem Pruned.documentElement?_eq {gone : List NodeId} {html : NodeId} (h : Pruned gone t t')
    (hlone : t.Lone) (hhtml : t.documentElement? = some html) (hstays : html ∉ gone) :
    t'.documentElement? = some html := by
  have hlone' : t'.Lone := by
    intro a ha b hb helement helement'
    rw [h.children] at ha hb
    rw [isElement, h.element?_eq] at helement helement'
    exact hlone a (List.mem_filter.mp ha).1 b (List.mem_filter.mp hb).1 helement helement'
  obtain ⟨hmem, helement⟩ := documentElement?_eq_some hhtml
  refine hlone'.documentElement?_eq.mpr ⟨?_, ?_⟩
  · rw [h.children]
    exact List.mem_filter.mpr ⟨hmem, decide_eq_true hstays⟩
  · rw [isElement, h.element?_eq]
    exact helement

/-- A document element that is gone is replaced. -/
theorem Pruned.rooted_eq {gone : List NodeId} {html : NodeId} (h : Pruned gone t t') (hlone : t.Lone)
    (hhtml : t.documentElement? = some html) :
    t'.rooted = if html ∈ gone then (t'.wrapper root "HTML").2 else t' := by
  rw [rooted]
  by_cases hgone : html ∈ gone
  · have hnone : ¬ t'.documentElement?.isSome = true := by
      rw [documentElement?, List.find?_isSome]
      simp only [h.children, List.mem_filter, decide_eq_true_eq, isElement, h.element?_eq]
      rintro ⟨x, ⟨hx, hstays⟩, helement⟩
      rw [hlone.documentElement?_eq.mpr ⟨hx, helement⟩] at hhtml
      cases hhtml
      exact hstays hgone
    rw [if_neg hnone, if_pos hgone]
  · have hsome : t'.documentElement?.isSome = true := by
      rw [h.documentElement?_eq hlone hhtml hgone]
      rfl
    rw [if_pos hsome, if_neg hgone]

theorem Grown.isElement_eq {p : NodeId} {ids : List NodeId} (h : Grown t t' p ids) {id : NodeId}
    (hid : id.index < t.size) : t'.isElement id = t.isElement id := by
  rw [isElement, element?, h.content id hid, isElement, element?]

theorem Grown.lone {p id : NodeId} (h : Grown t t' p [id]) (hl : t.Linked) (hlone : t.Lone)
    (hroot : root.index < t.size)
    (hfirst : p = root → t'.isElement id = true → t.documentElement?.isSome = false) : t'.Lone := by
  by_cases hp : p = root
  · subst hp
    have hold : ∀ a ∈ t.children root, t'.isElement a = true → t.documentElement?.isSome = true := by
      intro a ha helement
      rw [h.isElement_eq (hl.child_lt_size ha)] at helement
      exact List.find?_isSome.mpr ⟨a, ha, helement⟩
    have hne : ∀ a ∈ t.children root, t'.isElement a = true → t'.isElement id = true → False := by
      intro a ha helement hid
      have := hold a ha helement
      rw [hfirst rfl hid] at this
      cases this
    intro a ha b hb helement helement'
    rw [h.added, List.mem_append, List.mem_singleton] at ha hb
    rcases ha with ha | rfl
    · rcases hb with hb | rfl
      · rw [h.isElement_eq (hl.child_lt_size ha)] at helement
        rw [h.isElement_eq (hl.child_lt_size hb)] at helement'
        exact hlone a ha b hb helement helement'
      · exact (hne a ha helement helement').elim
    · rcases hb with hb | rfl
      · exact (hne b hb helement' helement).elim
      · rfl
  · have hsame := h.children root hroot (Ne.symm hp)
    intro a ha b hb helement helement'
    rw [hsame] at ha hb
    rw [h.isElement_eq (hl.child_lt_size ha)] at helement
    rw [h.isElement_eq (hl.child_lt_size hb)] at helement'
    exact hlone a ha b hb helement helement'

theorem Linked.ancestors_create (hl : t.Linked) (content : Content) (id : NodeId) :
    (t.create content).2.ancestors id = t.ancestors id := by
  have hchain : ∀ n start, (t.create content).2.chain n start = t.chain n start := by
    intro n
    induction n with
    | zero => exact fun _ => rfl
    | succ n ih =>
      intro start
      cases start with
      | none => rfl
      | some id => rw [chain, chain, ih, parent?_create]
  rw [ancestors, hchain, parent?_create]
  exact hl.chain_eq_ancestors (by simp) id

/-- A tree is what is left of it when a node that was attached is taken out again. -/
theorem Linked.pruned_attach (hl : t.Linked) (hf : t.Fits parent child)
    (hnone : t.parent? child = none) : Pruned [child] (t.attach parent child) t where
  size := (size_attach t parent child).symm
  content x := (content?_attach t parent child x).symm
  parent x := by
    rw [parent?_attach hf.child_lt_size]
    by_cases hx : x = child <;> simp [hx, hnone]
  children x := by
    have hfresh : ∀ y, child ∉ t.children y := by
      intro y hy
      rw [hl.mem_children, hnone] at hy
      cases hy
    have hself : (t.children x).filter (· ∉ [child]) = t.children x :=
      List.filter_eq_self.mpr fun y hy => by
        simpa using fun heq : y = child => hfresh x (heq ▸ hy)
    rw [children_attach hf.parent_lt_size, remove_of_parent?_none hnone]
    split
    · rw [List.filter_append, hself]
      simp
    · exact hself.symm

/-- A node that hung nowhere is attached. -/
theorem Linked.grown_adopt (hl : t.Linked) (hf : t.Fits parent child)
    (hnone : t.parent? child = none) : Grown t (t.attach parent child) parent [child] where
  linked := hl.attach hf
  size_le := Nat.le_of_eq (size_attach t parent child).symm
  content id _ := content?_attach t parent child id
  children id _ hne := by
    rw [children_attach hf.parent_lt_size, if_neg hne, remove_of_parent?_none hnone]
  added := by
    rw [children_attach hf.parent_lt_size, if_pos rfl, remove_of_parent?_none hnone]

end Tree

namespace Markup

open Growth

/-- The events are a tour of the nodes and of all below them. The elements that `S` holds of start
and end. -/
inductive Tour (t : Tree) (S : NodeId → Prop) : List NodeId → List Event → Prop where
  | nil : Tour t S [] []
  | text {id s rest log} : t.text? id = some s → Tour t S rest log →
    Tour t S (id :: rest) (⟨.textCreated, id⟩ :: log)
  | element {id rest inside log} : t.isElement id = true → S id →
    Tour t S (t.children id) inside → Tour t S rest log →
    Tour t S (id :: rest) (⟨.elementStarted, id⟩ :: inside ++ ⟨.elementEnded, id⟩ :: log)
  | wrapper {id rest inside log} : t.isElement id = true → ¬ S id →
    Tour t S (t.children id) inside → Tour t S rest log → Tour t S (id :: rest) (inside ++ log)

namespace OpenElement

/-- What is told when the element is opened. -/
def opening (o : OpenElement) : List Event :=
  if o.announced then [⟨.elementStarted, o.id⟩] else []

/-- What is told when the element is closed. -/
def closing (o : OpenElement) : List Event :=
  if o.announced then [⟨.elementEnded, o.id⟩] else []

end OpenElement

/-- The events are a tour that has come to the innermost of the open elements and has done the
nodes `ids` there. -/
inductive Underway (t : Tree) (S : NodeId → Prop) :
    List OpenElement → List NodeId → List Event → Prop where
  | outside {ids log} : Tour t S ids log → Underway t S [] ids log
  | inside {os before log o ids more} : Underway t S os before log →
    t.children (top os) = before ++ [o.id] → t.isElement o.id = true →
    (o.announced = true ↔ S o.id) → Tour t S ids more →
    Underway t S (o :: os) ids (log ++ (o.opening ++ more))

section Tours

variable {t t' : Tree} {S : NodeId → Prop} {os : List OpenElement} {o : OpenElement}
  {ids ids' before : List NodeId} {log log' more : List Event} {p : NodeId}

theorem Tour.append (h : Tour t S ids log) (h' : Tour t S ids' log') :
    Tour t S (ids ++ ids') (log ++ log') := by
  induction h with
  | nil => exact h'
  | text htext _ ih => exact .text htext ih
  | element helement hstarted hinside _ _ ih =>
    rw [List.append_assoc, List.cons_append]
    exact .element helement hstarted hinside ih
  | wrapper helement hsilent hinside _ _ ih =>
    rw [List.append_assoc]
    exact .wrapper helement hsilent hinside ih

/-- A tour of what a change leaves alone. -/
theorem Tour.transfer (h : Tour t S ids log) (hl : t.Linked)
    (hkept : ∀ x, t.Under ids x → t'.content? x = t.content? x ∧ t'.children x = t.children x) :
    Tour t' S ids log := by
  have hhead : ∀ {id : NodeId} {rest : List NodeId}, t.Under (id :: rest) id :=
    fun {id _} => ⟨id, List.mem_cons_self, .refl t id⟩
  have hinside : ∀ {id : NodeId} {rest : List NodeId} {x : NodeId}, t.Under (t.children id) x →
      t.Under (id :: rest) x :=
    fun {id _ _} hx => ⟨id, List.mem_cons_self, .inr (hl.under_children.mp hx)⟩
  have hrest : ∀ {id : NodeId} {rest : List NodeId} {x : NodeId}, t.Under rest x →
      t.Under (id :: rest) x :=
    fun hx => Tree.under_cons.mpr (.inr hx)
  have helement : ∀ {id : NodeId}, t'.content? id = t.content? id →
      t.isElement id = true → t'.isElement id = true := by
    intro id hsame h
    rw [Tree.isElement, Tree.element?, hsame]
    exact h
  induction h with
  | nil => exact .nil
  | text htext _ ih =>
    rw [Tree.text?, ← (hkept _ hhead).1, ← Tree.text?] at htext
    exact .text htext (ih fun x hx => hkept x (hrest hx))
  | element he hstarted _ _ ihinside ihrest =>
    obtain ⟨hcontent, hchildren⟩ := hkept _ hhead
    refine .element (helement hcontent he) hstarted ?_ (ihrest fun x hx => hkept x (hrest hx))
    rw [hchildren]
    exact ihinside fun x hx => hkept x (hinside hx)
  | wrapper he hsilent _ _ ihinside ihrest =>
    obtain ⟨hcontent, hchildren⟩ := hkept _ hhead
    refine .wrapper (helement hcontent he) hsilent ?_ (ihrest fun x hx => hkept x (hrest hx))
    rw [hchildren]
    exact ihinside fun x hx => hkept x (hinside hx)

/-- An element as a tour of its own. -/
theorem Tour.single (helement : t.isElement o.id = true) (hannounced : o.announced = true ↔ S o.id)
    (h : Tour t S (t.children o.id) more) : Tour t S [o.id] (o.opening ++ more ++ o.closing) := by
  simp only [OpenElement.opening, OpenElement.closing]
  by_cases ha : o.announced = true
  · simp only [ha, if_true]
    exact .element helement (hannounced.mp ha) h .nil
  · simp only [ha, Bool.false_eq_true, if_false, List.nil_append]
    exact .wrapper helement (fun hs => ha (hannounced.mpr hs)) h .nil

/-- The starts of a tour are the elements under its nodes that `S` holds of. -/
theorem Tour.mem_started (h : Tour t S ids log) (hl : t.Linked) {x : NodeId} :
    ⟨.elementStarted, x⟩ ∈ log ↔ t.Under ids x ∧ S x ∧ t.isElement x = true := by
  induction h with
  | nil => simp [Tree.not_under_nil]
  | @text id s rest log htext _ ih =>
    simp only [List.mem_cons, Event.mk.injEq, reduceCtorEq, false_and, false_or, ih,
      Tree.under_cons, hl.covers_text htext]
    constructor
    · exact fun h => ⟨.inr h.1, h.2⟩
    · rintro ⟨rfl | hrest, hs, he⟩
      · exact absurd he (Tree.not_isElement_of_text? htext)
      · exact ⟨hrest, hs, he⟩
  | @element id rest inside log he hstarted _ _ ihinside ihrest =>
    simp only [List.mem_append, List.mem_cons, Event.mk.injEq, reduceCtorEq, false_and,
      true_and, false_or, ihinside, ihrest, Tree.under_cons, hl.under_children, Tree.Covers]
    constructor
    · rintro ((rfl | h) | h)
      · exact ⟨.inl (.inl rfl), hstarted, he⟩
      · exact ⟨.inl (.inr h.1), h.2⟩
      · exact ⟨.inr h.1, h.2⟩
    · rintro ⟨(rfl | h) | h, hs⟩
      · exact .inl (.inl rfl)
      · exact .inl (.inr ⟨h, hs⟩)
      · exact .inr ⟨h, hs⟩
  | @wrapper id rest inside log _ hsilent _ _ ihinside ihrest =>
    simp only [List.mem_append, ihinside, ihrest, Tree.under_cons, hl.under_children, Tree.Covers]
    constructor
    · rintro (h | h)
      · exact ⟨.inl (.inr h.1), h.2⟩
      · exact ⟨.inr h.1, h.2⟩
    · rintro ⟨(rfl | h) | h, hs⟩
      · exact absurd hs.1 hsilent
      · exact .inl ⟨h, hs⟩
      · exact .inr ⟨h, hs⟩

/-- What holds of no nodes, of a child with what is below it, and of its later siblings with it,
holds of the children that a tour is made of. -/
theorem Tour.children_induction {P : NodeId → List NodeId → List Event → Prop} (hl : t.Linked)
    (hnil : ∀ p, P p [] [])
    (hcons : ∀ {p id ids log more}, (∀ x ∈ id :: ids, t.parent? x = some p) → (id :: ids).Nodup →
      Tour t S [id] log → Tour t S ids more → P p [id] log → P p ids more →
      P p (id :: ids) (log ++ more))
    (htext : ∀ {p id s}, t.parent? id = some p → t.text? id = some s →
      P p [id] [⟨.textCreated, id⟩])
    (helement : ∀ {p id inside}, t.parent? id = some p → t.isElement id = true → S id →
      P id (t.children id) inside →
      P p [id] (⟨.elementStarted, id⟩ :: inside ++ [⟨.elementEnded, id⟩]))
    (hwrapper : ∀ {p id inside}, t.parent? id = some p → t.isElement id = true → ¬ S id →
      P id (t.children id) inside → P p [id] inside)
    (h : Tour t S ids log) (hids : ∀ x ∈ ids, t.parent? x = some p) (hnodup : ids.Nodup) :
    P p ids log := by
  have hchildren : ∀ id, ∀ x ∈ t.children id, t.parent? x = some id := fun id x hx =>
    (hl.mem_children id x).mp hx
  induction h generalizing p with
  | nil => exact hnil p
  | @text id s rest log hs hrest ih =>
    exact hcons hids hnodup (.text hs .nil) hrest (htext (hids id List.mem_cons_self) hs)
      (ih (fun x hx => hids x (.tail _ hx)) (List.nodup_cons.mp hnodup).2)
  | @element id rest inside log he hstarted hinside hrest ihinside ihrest =>
    have hrest' := ihrest (fun x hx => hids x (.tail _ hx)) (List.nodup_cons.mp hnodup).2
    have hfirst := helement (hids id List.mem_cons_self) he hstarted
      (ihinside (hchildren id) (hl.nodup id))
    simpa using hcons hids hnodup (.element he hstarted hinside .nil) hrest hfirst hrest'
  | @wrapper id rest inside log he hsilent hinside hrest ihinside ihrest =>
    have hrest' := ihrest (fun x hx => hids x (.tail _ hx)) (List.nodup_cons.mp hnodup).2
    have hfirst := hwrapper (hids id List.mem_cons_self) he hsilent
      (ihinside (hchildren id) (hl.nodup id))
    have htour := Tour.wrapper he hsilent hinside .nil
    rw [List.append_nil] at htour
    exact hcons hids hnodup htour hrest hfirst hrest'

/-! ## Tours under way -/

theorem Underway.append (h : Underway t S os ids log) (h' : Tour t S ids' log') :
    Underway t S os (ids ++ ids') (log ++ log') := by
  cases h with
  | outside h => exact .outside (h.append h')
  | inside h hlast helement hannounced hinside =>
    rw [List.append_assoc, List.append_assoc]
    exact .inside h hlast helement hannounced (hinside.append h')

/-- The tour goes into the last child. -/
theorem Underway.enter (h : Underway t S os before log) (hlast : t.children (top os) = before ++ [o.id])
    (helement : t.isElement o.id = true) (hannounced : o.announced = true ↔ S o.id) :
    Underway t S (o :: os) [] (log ++ o.opening) := by
  have := Underway.inside h hlast helement hannounced .nil
  rwa [List.append_nil] at this

/-- The tour comes back out of the innermost element. -/
theorem Underway.leave (h : Underway t S (o :: os) (t.children o.id) log) :
    Underway t S os (t.children (top os)) (log ++ o.closing) := by
  cases h with
  | inside h hlast helement hannounced hinside =>
    rw [hlast, List.append_assoc]
    exact h.append (.single helement hannounced hinside)

/-- Growth beside the nodes that are done leaves the tour as it is. -/
theorem Underway.grown_beside (h : Underway t S os ids log) (hl : t.Linked) {new : List NodeId}
    (hgrown : t.Grown t' p new) (hids : ∀ id ∈ ids, id.index < t.size ∧ ¬ t.Covers id p)
    (htop : t.Covers (top os) p) : Underway t' S os ids log := by
  have hdone : ∀ {ids more}, Tour t S ids more →
      (∀ id ∈ ids, id.index < t.size ∧ ¬ t.Covers id p) → Tour t' S ids more := by
    intro ids more htour hids
    refine htour.transfer hl ?_
    rintro x ⟨id, hid, hx⟩
    obtain ⟨hlt, hcovers⟩ := hids id hid
    have hxlt : x.index < t.size := by
      rcases hx with rfl | hx
      · exact hlt
      · exact hx.lt_size
    have hne : x ≠ p := by
      intro heq
      exact hcovers (heq ▸ hx)
    exact ⟨hgrown.content x hxlt, hgrown.children x hxlt hne⟩
  induction h with
  | outside htour => exact .outside (hdone htour hids)
  | @inside os before log o ids more _ hlast helement hannounced hinside ih =>
    have hchild : ∀ id ∈ before ++ [o.id], t.parent? id = some (top os) := fun id hid =>
      (hl.mem_children _ _).mp (by rw [hlast]; exact hid)
    have ho := hchild o.id (by simp)
    have hne : top os ≠ p := by
      intro heq
      rw [← heq] at htop
      exact hl.not_covers_of_above (.single ho) htop
    have hbefore : ∀ id ∈ before, id.index < t.size ∧ ¬ t.Covers id p := by
      intro id hid
      have hparent := hchild id (List.mem_append_left _ hid)
      refine ⟨Tree.lt_size_of_parent? hparent, fun hcovers => ?_⟩
      have hsame := hl.eq_of_covers hparent ho hcovers htop
      have hnodup := hl.nodup (top os)
      rw [hlast, List.nodup_append] at hnodup
      exact hnodup.2.2 id hid o.id (by simp) hsame
    refine .inside (ih hbefore ((Tree.Covers.trans (.inr (.single ho)) htop))) ?_ ?_ hannounced
      (hdone hinside hids)
    · rw [hgrown.children _ (hl.parent_lt_size ho) hne, hlast]
    · rw [hgrown.isElement_eq (Tree.lt_size_of_parent? ho), helement]

/-- Growth where the tour stands. -/
theorem Underway.grown (h : Underway t S os (t.children (top os)) log) (hl : t.Linked)
    {new : List NodeId} (hgrown : t.Grown t' (top os) new) :
    Underway t' S os (t.children (top os)) log := by
  refine h.grown_beside hl hgrown (fun id hid => ⟨hl.child_lt_size hid, ?_⟩) (.refl t _)
  exact hl.not_covers_of_above (.single ((hl.mem_children _ _).mp hid))

end Tours

/-! ## Growth along the tour -/

namespace Growth

/-- The tree `t'` is `t` with new elements, one inside the other, under the innermost open element,
and the tour goes down into them. -/
structure Extended (t : Tree) (os new : List OpenElement) (t' : Tree) : Prop where
  grown : t.Grown t' (top os) (new.getLast?.map (·.id)).toList
  line : top (new ++ os) :: t'.ancestors (top (new ++ os)) =
    new.map (·.id) ++ top os :: t'.ancestors (top os)
  fresh : ∀ o ∈ new, t.size ≤ o.id.index ∧ o.id.index < t'.size
  underway : ∀ {S log}, Underway t S os (t.children (top os)) log →
    (∀ o ∈ new, o.announced = true ↔ S o.id) →
    Underway t' S (new ++ os) (t'.children (top (new ++ os)))
      (log ++ new.reverse.flatMap (·.opening))

section Extending

variable {t t' : Tree} {os new : List OpenElement} {o : OpenElement} {x : NodeId} {e : Element}

theorem extended_refl (hl : t.Linked) (os : List OpenElement) : Extended t os [] t where
  grown := .refl hl _
  line := rfl
  fresh := by simp
  underway h _ := by simpa using h

/-- A node is made that hangs nowhere yet. -/
theorem Extended.create (h : Extended t os new t') (content : Content) :
    Extended t os new (t'.create content).2 := by
  have hl' := h.grown.linked
  have hgrown : ∀ p, t'.Grown (t'.create content).2 p [] := fun p =>
    ⟨hl'.create content, by simp, fun id hid => Tree.content?_create_of_lt content hid, by simp,
      by simp⟩
  refine ⟨?_, ?_, fun o ho => ?_, fun hunderway hannounced => ?_⟩
  · have hboth := h.grown.trans (hgrown _)
    rwa [List.append_nil] at hboth
  · rw [hl'.ancestors_create, hl'.ancestors_create, h.line]
  · obtain ⟨hold, hlt⟩ := h.fresh o ho
    rw [Tree.size_create]
    exact ⟨hold, Nat.lt_succ_of_lt hlt⟩
  · rw [Tree.children_create]
    exact (h.underway hunderway hannounced).grown hl' (hgrown _)

/-- One more element is attached, inside the last. -/
theorem Extended.attach (h : Extended t os new t') (htop : (top os).index < t.size)
    (hf : t'.Fits (top (new ++ os)) o.id) (hdetached : t'.parent? o.id = none)
    (hleaf : t'.children o.id = []) (helement : t'.isElement o.id = true) (hold : t.size ≤ o.id.index) :
    Extended t os (o :: new) (t'.attach (top (new ++ os)) o.id) := by
  have hl' := h.grown.linked
  have hadopt := hl'.grown_adopt hf hdetached
  have hattached : (t'.attach (top (new ++ os)) o.id).parent? o.id = some (top (new ++ os)) := by
    rw [Tree.parent?_attach hf.child_lt_size, if_pos rfl]
  have hchildren : (t'.attach (top (new ++ os)) o.id).children o.id = [] := by
    rw [hadopt.children o.id hf.child_lt_size (Ne.symm hf.ne), hleaf]
  -- The new node has nothing below it, so the others keep their ancestors.
  have hancestors : ∀ y, y ≠ o.id →
      (t'.attach (top (new ++ os)) o.id).ancestors y = t'.ancestors y := by
    intro y hy
    refine ((hl'.pruned_attach hf hdetached).ancestors_eq hadopt.linked fun b hb hmem => ?_).symm
    rw [List.mem_singleton] at hmem
    subst hmem
    rcases hb with hb | hb
    · exact hy hb.symm
    · rw [← hadopt.linked.under_children, hchildren] at hb
      exact Tree.not_under_nil hb
  have hne : top os ≠ o.id := by
    intro heq
    rw [heq] at htop
    omega
  refine ⟨?_, ?_, ?_, ?_⟩
  · cases new with
    | nil => exact h.grown.trans hadopt
    | cons last new =>
      rw [List.getLast?_cons_cons]
      exact h.grown.inside htop (h.fresh last List.mem_cons_self).1 hadopt
  · have hline := h.line
    rw [← hancestors _ hf.ne, ← hancestors _ hne] at hline
    rw [List.cons_append, top_cons, hadopt.linked.ancestors_of_parent? hattached, hline,
      List.map_cons, List.cons_append]
  · intro o' ho'
    rw [Tree.size_attach]
    rcases List.mem_cons.mp ho' with rfl | ho'
    · exact ⟨hold, hf.child_lt_size⟩
    · exact h.fresh o' ho'
  · intro S log hunderway hannounced
    have hbefore := (h.underway hunderway fun o' ho' => hannounced o' (.tail _ ho')).grown hl' hadopt
    have hentered := hbefore.enter hadopt.added
      (by rw [hadopt.isElement_eq hf.child_lt_size, helement]) (hannounced o List.mem_cons_self)
    rw [← hchildren] at hentered
    simpa using hentered

/-- What stands between the last of the new elements and what was open before. -/
theorem Extended.between (h : Extended t os (o :: new) t') (htop : (top os).index < t.size) :
    (t'.ancestors o.id).takeWhile (· ≠ top os) = new.map (·.id) := by
  have hline : t'.ancestors o.id = new.map (·.id) ++ top os :: t'.ancestors (top os) :=
    (List.cons.inj h.line).2
  have hnew : ∀ id ∈ new.map (·.id), decide (id ≠ top os) = true := by
    intro id hid
    obtain ⟨w, hw, rfl⟩ := List.mem_map.mp hid
    have hold := (h.fresh w (.tail _ hw)).1
    refine decide_eq_true fun heq => ?_
    rw [heq] at hold
    omega
  rw [hline, List.takeWhile_append_of_pos hnew]
  simp

/-- The tree has been extended for the element `x`, which itself has still to be attached, by
wrappers that nobody is told of. -/
structure Sheltered (t : Tree) (os : List OpenElement) (x : NodeId) (e : Element) (q : NodeId)
    (t' : Tree) : Prop where
  fits : t'.Fits q x
  detached : t'.parent? x = none
  leaf : t'.children x = []
  content : t'.content? x = some (.element e)
  extended : ∃ ws : List OpenElement, (∀ w ∈ ws, w.announced = false ∧ x.index < w.id.index) ∧
    q = top (ws ++ os) ∧ Extended t os ws t'

theorem Standing.sheltered_create (h : Standing os t) (e : Element) :
    Sheltered t os ⟨t.size⟩ e (top os) (t.create (.element e)).2 := by
  obtain ⟨c, hc, htext⟩ := h.top_holds
  refine ⟨Tree.fits_create h.linked (by simp) hc htext, ?_, ?_, ?_, [], by simp, rfl,
    (extended_refl h.linked _).create _⟩
  · rw [Tree.parent?_create, Tree.parent?_size]
  · rw [Tree.children_create, Tree.children_size]
  · rw [Tree.content?_create, if_pos rfl]

theorem Sheltered.wrapper {q : NodeId} (h : Sheltered t os x e q t') (htop : (top os).index < t.size)
    (tag : String) :
    Sheltered t os x e (t'.wrapper q tag).1 (t'.wrapper q tag).2 := by
  obtain ⟨ws, hws, rfl, hextended⟩ := h.extended
  have hl := hextended.grown.linked
  have hx := h.fits.child_lt_size
  obtain ⟨c, hc, htext⟩ := h.fits.holds
  obtain ⟨hgrown, -, -, -, -⟩ := hl.grown_attach (.element (.ofTag tag)) (by simp) hc htext
  have hfit := Tree.fits_create hl (show Content.element (.ofTag tag) ≠ .document by simp) hc htext
  have hcontent : (t'.create (.element (.ofTag tag))).2.content? ⟨t'.size⟩ =
      some (.element (.ofTag tag)) := by
    rw [Tree.content?_create, if_pos rfl]
  have helement := Tree.isElement_iff.mpr ⟨_, hcontent⟩
  refine ⟨(hl.wrapper h.fits tag).2, ?_, ?_, ?_, ⟨⟨t'.size⟩, false⟩ :: ws, ?_, rfl, ?_⟩
  · rw [(Tree.begins_wrapper t' _ tag).parent _ hx, h.detached]
  · rw [Tree.wrapper_eq, hgrown.children _ hx (Ne.symm h.fits.ne), h.leaf]
  · rw [Tree.content?_wrapper_of_lt _ hx, h.content]
  · intro w hw
    rcases List.mem_cons.mp hw with rfl | hw
    · exact ⟨rfl, hx⟩
    · exact hws w hw
  · rw [Tree.wrapper_eq]
    refine (hextended.create _).attach htop hfit ?_ ?_ helement hextended.grown.size_le
    · rw [Tree.parent?_create, Tree.parent?_size]
    · rw [Tree.children_create, Tree.children_size]

/-- Wrappers can be told by their numbers. -/
theorem map_silent {ws : List OpenElement} (hws : ∀ w ∈ ws, w.announced = false) :
    (ws.map (·.id)).map (⟨·, false⟩) = ws := by
  rw [List.map_map]
  refine (List.map_congr_left fun w hw => ?_).trans (List.map_id ws)
  rw [Function.comp_apply, ← hws w hw, id]

variable {ω : Type} {g : Growth ω}

/-- A new element and its shelter extend the tree. Of the shelter nobody is told. -/
theorem exists_extended (h : Standing g.stack g.tree) (e : Element) :
    ∃ ws : List OpenElement, (∀ w ∈ ws, w.announced = false ∧ g.tree.size < w.id.index) ∧
      g.sprout e = { g with tree := g.sprouted e, stack := ws ++ g.stack } ∧
      Extended g.tree g.stack (⟨⟨g.tree.size⟩, true⟩ :: ws) (g.sprouted e) ∧
      (g.sprouted e).content? ⟨g.tree.size⟩ = some (.element e) := by
  obtain ⟨c, hc, htext⟩ := h.top_holds
  have htop := Tree.lt_size_of_content? hc
  have hsheltered := Tree.shelter_induction (P := Sheltered g.tree g.stack ⟨g.tree.size⟩ e)
    (fun _ _ tag _ h => h.wrapper htop tag) e.tag (h.sheltered_create e)
  obtain ⟨ws, hws, hq, hextended⟩ := hsheltered.extended
  have helement := Tree.isElement_iff.mpr ⟨_, hsheltered.content⟩
  have hsprouted : g.sprouted e =
      ((g.tree.create (.element e)).2.shelter (top g.stack) e.tag).2.attach
        (top (ws ++ g.stack)) ⟨g.tree.size⟩ := by
    rw [← hq]
    rfl
  have hattached := hextended.attach (o := ⟨⟨g.tree.size⟩, true⟩) htop (hq ▸ hsheltered.fits)
    hsheltered.detached hsheltered.leaf helement (Nat.le_refl _)
  rw [← hsprouted] at hattached
  refine ⟨ws, hws, ?_, hattached, ?_⟩
  · rw [sprout_eq, hattached.between htop, map_silent fun w hw => (hws w hw).1]
  · rw [hsprouted, Tree.content?_attach, hsheltered.content]

end Extending

/-! ## The tour of a document -/

/-- What is written down while nobody changes the tree is a tour under way. -/
structure Touring (t : Tree) (os : List OpenElement) (log : List Notice) : Prop where
  lone : t.Lone
  ordered : (nodesOf .elementStarted log).Pairwise (·.index < ·.index)
  underway : ∀ S : NodeId → Prop,
    (∀ id, id.index < t.size → (S id ↔ id ∈ nodesOf .elementStarted log)) →
    Underway t S os (t.children (top os)) (log.map (·.event))

section Touring

variable {t t' : Tree} {os ws : List OpenElement} {o : OpenElement} {log : List Notice}
  {id : NodeId} {content : Option Content}

theorem touring_empty : Touring .empty [] [] where
  lone a ha := by
    rw [Tree.children_empty] at ha
    cases ha
  ordered := .nil
  underway S _ := by
    rw [Tree.children_empty]
    exact .outside .nil

theorem Touring.text (h : Touring t os log) (hl : t.Linked) (hroot : Tree.root.index < t.size)
    (hgrown : t.Grown t' (top os) [id]) {s : String} (htext : t'.text? id = some s) :
    Touring t' os (log ++ [⟨⟨.textCreated, id⟩, content⟩]) where
  lone := by
    refine hgrown.lone hl h.lone hroot fun _ helement => ?_
    exact absurd helement (Tree.not_isElement_of_text? htext)
  ordered := by
    rw [nodesOf_concat_of_ne (by simp)]
    exact h.ordered
  underway S hS := by
    rw [nodesOf_concat_of_ne (by simp)] at hS
    have hbefore := (h.underway S fun x hx => hS x (Nat.lt_of_lt_of_le hx hgrown.size_le)).grown
      hl hgrown
    rw [hgrown.added, List.map_append]
    exact hbefore.append (.text htext .nil)

/-- New elements, one inside the other, of which what is told makes the notices. -/
theorem Touring.extended {new : List OpenElement} (h : Touring t os log) (notices : List Notice)
    (hl : t.Linked) (hroot : Tree.root.index < t.size)
    (hknown : ∀ n ∈ log, n.event.node.index < t.size) (hextended : Extended t os new t')
    (hfirst : top os = Tree.root → t.documentElement?.isSome = false)
    (hne : new ≠ []) (hevents : notices.map (·.event) = new.reverse.flatMap (·.opening))
    (hopened : ∀ o ∈ new, o.announced = true ↔ o.id ∈ nodesOf .elementStarted notices)
    (hordered : (nodesOf .elementStarted notices).Pairwise (·.index < ·.index))
    (hold : ∀ x ∈ nodesOf .elementStarted notices, t.size ≤ x.index) :
    Touring t' (new ++ os) (log ++ notices) := by
  have hbefore : ∀ x ∈ nodesOf .elementStarted log, x.index < t.size := by
    intro x hx
    obtain ⟨n, hn, rfl⟩ := mem_of_mem_nodesOf hx
    exact hknown n hn
  refine ⟨?_, ?_, fun S hS => ?_⟩
  · have hgrown := hextended.grown
    obtain ⟨first, hlast⟩ := Option.isSome_iff_exists.mp (List.getLast?_isSome.mpr hne)
    rw [hlast] at hgrown
    exact hgrown.lone hl h.lone hroot fun htop _ => hfirst htop
  · rw [nodesOf_append, List.pairwise_append]
    exact ⟨h.ordered, hordered, fun x hx y hy => Nat.lt_of_lt_of_le (hbefore x hx) (hold y hy)⟩
  · simp only [nodesOf_append, List.mem_append] at hS
    have hsame : ∀ x : NodeId, x.index < t.size → (S x ↔ x ∈ nodesOf .elementStarted log) := by
      intro x hx
      rw [hS x (Nat.lt_of_lt_of_le hx hextended.grown.size_le)]
      exact or_iff_left fun hmem => Nat.not_lt.mpr (hold x hmem) hx
    have hopen : ∀ o ∈ new, o.announced = true ↔ S o.id := by
      intro o ho
      obtain ⟨hfresh, hlt⟩ := hextended.fresh o ho
      rw [hopened o ho, hS o.id hlt]
      exact (or_iff_right fun hmem => Nat.not_lt.mpr hfresh (hbefore o.id hmem)).symm
    rw [List.map_append, hevents]
    exact hextended.underway (h.underway S hsame) hopen

theorem Touring.start (h : Touring t os log) (content : Option Content) (hl : t.Linked) (hroot : Tree.root.index < t.size)
    (hknown : ∀ n ∈ log, n.event.node.index < t.size)
    (hextended : Extended t os (⟨id, true⟩ :: ws) t')
    (hws : ∀ w ∈ ws, w.announced = false ∧ id.index < w.id.index)
    (hfirst : top os = Tree.root → t.documentElement?.isSome = false) :
    Touring t' (⟨id, true⟩ :: ws ++ os) (log ++ [⟨⟨.elementStarted, id⟩, content⟩]) := by
  have hstarted : nodesOf .elementStarted [⟨⟨.elementStarted, id⟩, content⟩] = [id] := rfl
  refine h.extended _ hl hroot hknown hextended hfirst (List.cons_ne_nil _ _) ?_ ?_ ?_ ?_
  · have hsilent : ws.reverse.flatMap (·.opening) = [] := by
      refine List.flatMap_eq_nil_iff.mpr fun w hw => ?_
      rw [OpenElement.opening, (hws w (List.mem_reverse.mp hw)).1]
      rfl
    rw [List.reverse_cons, List.flatMap_append, hsilent]
    rfl
  · intro o ho
    rw [hstarted, List.mem_singleton]
    rcases List.mem_cons.mp ho with rfl | ho
    · simp
    · obtain ⟨hsilent, hafter⟩ := hws o ho
      rw [hsilent]
      refine iff_of_false (by simp) fun heq => ?_
      rw [heq] at hafter
      exact Nat.lt_irrefl _ hafter
  · exact List.pairwise_singleton _ _
  · intro x hx
    rw [hstarted, List.mem_singleton] at hx
    rw [hx]
    exact (hextended.fresh ⟨id, true⟩ List.mem_cons_self).1

theorem Touring.leave (h : Touring t (o :: os) log) (hsilent : o.announced = false) :
    Touring t os log where
  lone := h.lone
  ordered := h.ordered
  underway S hS := by
    have hleft := (h.underway S hS).leave
    rw [OpenElement.closing, hsilent] at hleft
    simpa using hleft

theorem Touring.stop (h : Touring t (⟨id, true⟩ :: os) log) :
    Touring t os (log ++ [⟨⟨.elementEnded, id⟩, content⟩]) where
  lone := h.lone
  ordered := by
    rw [nodesOf_concat_of_ne (by simp)]
    exact h.ordered
  underway S hS := by
    rw [nodesOf_concat_of_ne (by simp)] at hS
    rw [List.map_append]
    exact (h.underway S hS).leave

theorem documentElement?_rooted (h : Standing [] t) : t.rooted.documentElement?.isSome = true := by
  rw [Tree.rooted]
  split
  · next hsome => exact hsome
  · obtain ⟨hgrown, hcontent, -, -, -⟩ :=
      h.linked.grown_attach (.element (.ofTag "HTML")) (by simp) h.root (by simp)
    rw [Tree.wrapper_eq]
    refine List.find?_isSome.mpr ⟨⟨t.size⟩, ?_, ?_⟩
    · rw [hgrown.added]
      simp
    · exact Tree.isElement_iff.mpr ⟨_, hcontent⟩

end Touring

section Documents

variable {g : Growth (Unit × List Notice)} {tokens : List Token} {os closed : List OpenElement}
  {o : OpenElement}

theorem lawful_unwatched : unwatched.Lawful :=
  fun _ _ _ => ⟨[], rfl⟩

theorem Touring.takeText (h : Touring g.tree g.stack g.memory.2) (hsound : Sound tokens g.stack g)
    (index : Nat) (s : String) :
    let g' := g.takeText unwatched.recorded index s
    Touring g'.tree g'.stack g'.memory.2 := by
  obtain ⟨c, hc, htext⟩ := hsound.standing.top_holds
  have hl := hsound.standing.linked
  obtain ⟨hgrown, hcontent, -, -, -⟩ := hl.grown_attach (.text s) (by simp) hc htext
  rw [takeText_eq hsound.standing]
  exact h.text hl (Tree.lt_size_of_content? hsound.standing.root) hgrown
    (Tree.text?_eq_some.mpr hcontent)

theorem Touring.takeStart (h : Touring g.tree g.stack g.memory.2) (hsound : Sound tokens g.stack g)
    (index : Nat) (tag : String) (attributes : List Attribute) (hlate : ¬ g.Late) :
    let g' := g.takeStart unwatched.recorded index tag attributes
    Touring g'.tree g'.stack g'.memory.2 := by
  obtain ⟨ws, hws, hsprout, hextended, -⟩ :=
    exists_extended hsound.standing (.ofSource tag attributes)
  have hfirst : top g.stack = Tree.root → g.tree.documentElement?.isSome = false := by
    intro htop
    exact Bool.eq_false_iff.mpr fun hsome => hlate ⟨htop, hsome⟩
  have hstart := fun content => h.start content hsound.standing.linked
    (Tree.lt_size_of_content? hsound.standing.root) hsound.told.known hextended hws hfirst
  rw [takeStart_eq hsound.standing hlate, hsprout]
  by_cases hvoid : isVoid tag = true
  · simp only [if_pos hvoid]
    exact (hstart _).stop
  · simp only [if_neg hvoid]
    exact hstart _

theorem Touring.announceEnd (h : Touring g.tree (o :: os) g.memory.2) :
    let g' := announceEnd unwatched.recorded g o
    Touring g'.tree os g'.memory.2 := by
  obtain ⟨id, announced⟩ := o
  cases announced with
  | false => exact h.leave rfl
  | true => exact h.stop

/-- The innermost elements end. -/
theorem Touring.foldl {f : Growth (Unit × List Notice) → OpenElement → Growth (Unit × List Notice)}
    (hf : ∀ g o, ∃ issues, f g o = Growth.announceEnd unwatched.recorded { g with issues } o)
    (h : Touring g.tree (closed ++ os) g.memory.2) :
    let g' := closed.foldl f g
    Touring g'.tree os g'.memory.2 ∧ g'.stack = g.stack := by
  induction closed generalizing g with
  | nil => exact ⟨h, rfl⟩
  | cons o closed ih =>
    obtain ⟨issues, heq⟩ := hf g o
    have hended := Touring.announceEnd (g := { g with issues }) h
    rw [← heq] at hended
    obtain ⟨hrest, hstack⟩ := ih hended
    refine ⟨hrest, hstack.trans ?_⟩
    rw [heq, stack_announceEnd]

theorem Touring.takeEnd (h : Touring g.tree g.stack g.memory.2) (index : Nat) (tag : String) :
    let g' := g.takeEnd unwatched.recorded index tag
    Touring g'.tree g'.stack g'.memory.2 := by
  simp only [Growth.takeEnd]
  split
  · exact h
  · split
    · exact h
    · next closed rest hdrop =>
      have hsplit : g.stack.takeWhile (fun o => g.tree.tag? o.id ≠ some tag) ++ closed :: rest =
          g.stack := by
        rw [← hdrop]
        exact List.takeWhile_append_dropWhile
      rw [← hsplit] at h
      obtain ⟨hclosed, hstack⟩ := Touring.foldl (g := { g with stack := rest })
        (closeImplicitly_eq_announceEnd unwatched.recorded index) h
      rw [stack_announceEnd, hstack]
      exact hclosed.announceEnd

theorem Touring.take (h : Touring g.tree g.stack g.memory.2) (hsound : Sound tokens g.stack g)
    (token : Nat × Token) (hunmoved : Unmoved (take unwatched.recorded g token).issues) :
    let g' := Growth.take unwatched.recorded g token
    Touring g'.tree g'.stack g'.memory.2 := by
  obtain ⟨index, token⟩ := token
  cases token with
  | text s => exact h.takeText hsound index s
  | startTag tag attributes =>
    exact h.takeStart hsound index tag attributes (not_late hsound.standing hunmoved)
  | endTag tag => exact h.takeEnd index tag

theorem Touring.takeAll (h : Touring g.tree g.stack g.memory.2) (hsound : Sound tokens g.stack g)
    (later : List (Nat × Token))
    (hunmoved : Unmoved (later.foldl (Growth.take unwatched.recorded) g).issues) :
    let g' := later.foldl (Growth.take unwatched.recorded) g
    Touring g'.tree g'.stack g'.memory.2 := by
  induction later generalizing tokens g with
  | nil => exact h
  | cons token later ih =>
    have hnext := hunmoved.of_prefix (issues_takeAll later _)
    exact ih (h.take hsound token hnext) (hsound.take lawful_unwatched token) hunmoved

/-- The root that a document is given at the end is passed through in silence. -/
theorem Touring.rooted {t : Tree} {log : List Notice} (h : Touring t [] log)
    (hstanding : Standing [] t) (hknown : ∀ n ∈ log, n.event.node.index < t.size) :
    Touring t.rooted [] log := by
  rw [Tree.rooted]
  split
  · exact h
  · next hnone =>
    have hl := hstanding.linked
    have hroot := Tree.lt_size_of_content? hstanding.root
    have hfit := Tree.fits_create hl (show Content.element (.ofTag "HTML") ≠ .document by simp)
      hstanding.root (by simp)
    have hcontent : (t.create (.element (.ofTag "HTML"))).2.content? ⟨t.size⟩ =
        some (.element (.ofTag "HTML")) := by
      rw [Tree.content?_create, if_pos rfl]
    have helement := Tree.isElement_iff.mpr ⟨_, hcontent⟩
    have hextended := ((extended_refl hl []).create (.element (.ofTag "HTML"))).attach
      (o := ⟨⟨t.size⟩, false⟩) hroot hfit (by rw [Tree.parent?_create, Tree.parent?_size])
      (by rw [Tree.children_create, Tree.children_size]) helement (Nat.le_refl _)
    have hopened := h.extended [] hl hroot hknown hextended
      (fun _ => by simpa using hnone) (by simp) rfl (by simp [nodesOf]) .nil (by simp [nodesOf])
    simp only [List.append_nil] at hopened
    exact hopened.leave rfl

/-- All that is open ends. -/
theorem Touring.endAll (h : Touring g.tree g.stack g.memory.2) (hsound : Sound tokens g.stack g) :
    let g' := g.stack.foldl (Growth.announceEnd unwatched.recorded) { g with stack := [] }
    Touring g'.tree [] g'.memory.2 ∧ Sound tokens [] g' := by
  rw [← List.append_nil g.stack] at h hsound
  refine ⟨(Touring.foldl (g := { g with stack := [] }) (fun g o => ⟨g.issues, rfl⟩) h).1, ?_⟩
  exact (Sound.foldl (g := { g with stack := [] }) (Sound.announceEnd lawful_unwatched)
    stack_announceEnd ⟨hsound.standing, hsound.told⟩).1

end Documents

end Growth

/-- The log is that of a document which grew into the tree: a tour of it, in which elements start in
the order of their numbers. -/
structure Toured (t : Tree) (log : List Notice) : Prop where
  linked : t.Linked
  document : t.content? Tree.root = some .document
  root : t.documentElement?.isSome = true
  lone : t.Lone
  ordered : (nodesOf .elementStarted log).Pairwise (·.index < ·.index)
  tour : Tour t (· ∈ nodesOf .elementStarted log) (t.children Tree.root) (log.map (·.event))

/-- The elements that start are elements of the document. -/
theorem Toured.above_of_started {t : Tree} {log : List Notice} (h : Toured t log) {x : NodeId}
    (hx : x ∈ nodesOf .elementStarted log) : t.Above Tree.root x ∧ t.isElement x = true := by
  have hevent : ⟨.elementStarted, x⟩ ∈ log.map (·.event) := by
    simp only [nodesOf, List.mem_map, List.mem_filter, decide_eq_true_eq] at hx ⊢
    obtain ⟨n, ⟨hn, hkind⟩, hnode⟩ := hx
    exact ⟨n, hn, by rw [← hkind, ← hnode]⟩
  obtain ⟨hunder, -, helement⟩ := (h.tour.mem_started h.linked).mp hevent
  exact ⟨h.linked.under_children.mp hunder, helement⟩

/-- The document element covers all elements that start. -/
theorem Toured.covers_of_started {t : Tree} {log : List Notice} (h : Toured t log) {html x : NodeId}
    (hhtml : t.documentElement? = some html) (hx : x ∈ nodesOf .elementStarted log) :
    t.Covers html x := by
  have hl := h.linked
  obtain ⟨habove, helement⟩ := h.above_of_started hx
  obtain ⟨c, hc, hcx⟩ := hl.under_children.mpr habove
  have hparent := (hl.mem_children _ _).mp hc
  suffices hcelement : t.isElement c = true by
    rw [h.lone.documentElement?_eq.mpr ⟨hc, hcelement⟩] at hhtml
    cases hhtml
    exact hcx
  rcases hcx with rfl | hcx
  · exact helement
  · obtain ⟨content, hcontent⟩ := Tree.exists_content? (Tree.lt_size_of_parent? hparent)
    cases content with
    | document => cases (hl.document_top c hcontent).symm.trans hparent
    | text s =>
      have heq := (hl.covers_text (Tree.text?_eq_some.mpr hcontent)).mp (.inr hcx)
      exact absurd (heq ▸ hcx) (hl.acyclic c)
    | element e => exact Tree.isElement_iff.mpr ⟨e, hcontent⟩

/-- Reading a document to its end, which gives no tree where it breaks off. -/
theorem parseWith_eq_ok {ω : Type} {p p' : Parser} {observer : Observer ω} {memory memory' : ω}
    {input : String} {t : Tree}
    (hparse : p.parseWith observer memory input = (.ok t, memory', p')) :
    let g := (read input.toList).tokens.foldl (take observer) { memory }
    (read input.toList).failure? input.toList = none ∧ (g.finish observer input.length).tree = t ∧
      (g.finish observer input.length).memory = memory' ∧
      p' = ⟨(read input.toList).stopped, (g.finish observer input.length).issues⟩ := by
  have hread : readFrom p.reset.position 0 input.toList = read input.toList := rfl
  simp only [Parser.parseWith, hread] at hparse
  cases hfailure : (read input.toList).failure? input.toList with
  | some failure => simp [hfailure] at hparse
  | none =>
    simp only [hfailure, Prod.mk.injEq, Except.ok.injEq] at hparse
    obtain ⟨htree, hmemory, hparser⟩ := hparse
    exact ⟨rfl, htree, hmemory, hparser.symm⟩

/-- **The events of an unmoved document are a tour of its tree.** -/
theorem toured_of_parse {p p' : Parser} {input : String} {t : Tree} {log : List Notice}
    (hparse : p.parseWith unwatched.recorded ((), []) input = (.ok t, ((), log), p'))
    (hunmoved : Unmoved p'.issues) : Toured t log := by
  obtain ⟨-, htree, hmemory, hparser⟩ := parseWith_eq_ok hparse
  have hsound := Sound.takeAll (g := { memory := ((), []) }) lawful_unwatched
    (sound_start ()) (read input.toList).tokens
  have htouring := touring_empty.takeAll (g := { memory := ((), []) }) (sound_start ())
    (read input.toList).tokens
  generalize (read input.toList).tokens.foldl (take unwatched.recorded) { memory := ((), []) } = g
    at *
  rw [hparser] at hunmoved
  obtain ⟨hclosed, hsound⟩ := (htouring (hunmoved.of_prefix (issues_finish _ g))).endAll hsound
  rw [finish_eq_rooted _ _ hsound.standing] at htree hmemory
  have hrooted := hclosed.rooted hsound.standing hsound.told.known
  have hstanding := hsound.standing.rooted
  have hsome := documentElement?_rooted hsound.standing
  dsimp only at htree hmemory
  rw [htree, hmemory] at hrooted
  rw [htree] at hstanding hsome
  have htour := hrooted.underway (· ∈ nodesOf .elementStarted log) fun _ _ => Iff.rfl
  cases htour with
  | outside htour =>
    exact ⟨hstanding.linked, hstanding.root, hsome, hrooted.lone, hrooted.ordered, htour⟩

/-- What is to be told of a document, from its first event to its last. -/
def sourceLog (input : String) : List Notice :=
  (({} : Parser).parseWith unwatched.recorded ((), []) input).2.1.2

/-- The elements that start tags stand for. -/
def sourceElements (input : String) : List NodeId :=
  nodesOf .elementStarted (sourceLog input)

theorem recorded_of_parse {p p' : Parser} {input : String} {t : Tree}
    (hparse : p.parse input = (.ok t, p')) :
    p.parseWith unwatched.recorded ((), []) input = (.ok t, ((), sourceLog input), p') := by
  have hrecorded := parseWith_recorded p unwatched () input
  have hsame : p.parseWith unwatched.recorded ((), []) input =
      ({} : Parser).parseWith unwatched.recorded ((), []) input := rfl
  simp only [Parser.parse, hrecorded, Prod.mk.injEq] at hparse
  rw [← hparse.1, ← hparse.2, sourceLog, ← hsame]

theorem exists_ok {ε α β : Type} {result : Except ε α} {f : α → β} {b : β}
    (hfound : result.toOption.map f = some b) : ∃ a, result = .ok a ∧ f a = b := by
  cases result with
  | error e => cases hfound
  | ok a => exact ⟨a, rfl, Option.some.inj hfound⟩

/-- A document that gives a tree is read to its end. -/
theorem exists_tree {p : Parser} {input : String} {α : Type} {f : Tree → α} {a : α}
    (hfound : (p.parse input).1.toOption.map f = some a) :
    ∃ t p', p.parse input = (.ok t, p') ∧ f t = a := by
  obtain ⟨t, hok, hfound⟩ := exists_ok hfound
  exact ⟨t, (p.parse input).2, Prod.ext hok rfl, hfound⟩

/-- Where there are no issues, the document is unmoved, too. -/
theorem exists_parsed {p : Parser} {input : String} {α : Type} {f : Tree → α} {a : α}
    (hfound : (p.parse input).1.toOption.map f = some a) (hissues : (p.parse input).2.issues = []) :
    ∃ t p', p.parse input = (.ok t, p') ∧ Unmoved p'.issues ∧ f t = a := by
  obtain ⟨t, p', hparse, hfound⟩ := exists_tree hfound
  have hissues : p'.issues = [] := by rwa [hparse] at hissues
  exact ⟨t, p', hparse, by simp [Unmoved, hissues], hfound⟩

theorem toured_of_source {p p' : Parser} {input : String} {t : Tree}
    (hparse : p.parse input = (.ok t, p')) (hunmoved : Unmoved p'.issues) :
    Toured t (sourceLog input) :=
  toured_of_parse (recorded_of_parse hparse) hunmoved

end Markup

end Hypertext
