/-
Observers that take nodes out and edit attributes, and do nothing else. They do
not disturb the parse: it raises the same events in the same order for the same
nodes as with nobody watching, and the nodes have the same names and texts,
wherever they hang by then (`undisturbed`).

One node may be added. Every document ends with a root, so when the observers
have taken out the one of the source, an empty one is made that nobody is told
of.
-/
import Hypertext.Markup.Edit
import Hypertext.Proofs.Markup.Lockstep
import Hypertext.Proofs.Tree.Shape

namespace Hypertext

namespace Tree

/-- The mutation takes a node out, or edits the attributes of one. -/
def Mutation.Detaches : Mutation → Prop
  | .remove _ | .editAttributes _ _ => True
  | _ => False

variable {t t' : Tree}

theorem Thinned.refl (t : Tree) : t.Thinned t :=
  ⟨[], by simp, .refl _⟩

/-- A node that is unknown cannot be taken out, so it is not gone when it comes later. -/
theorem Thinned.remove (h : t.Thinned t') (hl : t.Linked) (id : NodeId) : t.Thinned (t'.remove id) := by
  obtain ⟨gone, hknown, hpruned⟩ := h
  by_cases hid : id.index < t.size
  · refine ⟨id :: gone, fun x hx => ?_, ?_⟩
    · rcases List.mem_cons.mp hx with rfl | hx
      · exact hid
      · exact hknown x hx
    · rw [stripped_remove]
      exact hpruned.remove (linked_stripped.mpr hl) id
  · have hsize : t'.size ≤ id.index := by
      rw [Thinned.size ⟨gone, hknown, hpruned⟩]
      exact Nat.le_of_not_lt hid
    rw [remove_of_parent?_none (parent?_eq_none_of_size_le hsize)]
    exact ⟨gone, hknown, hpruned⟩

theorem Thinned.mutate (h : t.Thinned t') (hl : t.Linked) {m : Mutation} (hm : m.Detaches) :
    t.Thinned (t'.mutate m) := by
  cases m with
  | remove id => exact h.remove hl id
  | editAttributes id f =>
    obtain ⟨gone, hknown, hpruned⟩ := h
    refine ⟨gone, hknown, ?_⟩
    rw [Tree.mutate, stripped_modifyAttributes]
    exact hpruned
  | _ => exact hm.elim

theorem Thinned.mutateAll (h : t.Thinned t') (hl : t.Linked) {ms : List Mutation}
    (hms : ∀ m ∈ ms, m.Detaches) : t.Thinned (t'.mutateAll ms) := by
  induction ms generalizing t' with
  | nil => exact h
  | cons m ms ih =>
    exact ih (h.mutate hl (hms m List.mem_cons_self)) fun m hm => hms m (.tail _ hm)

/-! ## Names and texts -/

/-- In both trees the node has the same name, and the same text if it is one. -/
def SameName (t t' : Tree) (id : NodeId) : Prop :=
  t'.name? id = t.name? id ∧ t'.text? id = t.text? id

theorem sameName_of_content {id : NodeId}
    (h : (t'.content? id).map Content.stripped = (t.content? id).map Content.stripped) :
    SameName t t' id := by
  rw [← content?_stripped, ← content?_stripped] at h
  constructor
  · rw [← name?_stripped t', ← name?_stripped t, name?, h, name?]
  · rw [← text?_stripped t', ← text?_stripped t, text?_congr h]

/-- The tree has got a root without anything in it. -/
structure Rerooted (t t' : Tree) : Prop where
  size : t'.size = t.size + 1
  content : t'.content? ⟨t.size⟩ = some (.element (.ofTag "HTML"))
  alone : t'.childElements root = [⟨t.size⟩]
  empty : t'.children ⟨t.size⟩ = []

end Tree

namespace Markup

open Growth Hypertext.Tree

variable {ω : Type}

namespace Growth

variable {t u u' : Tree}

/-- A document without an element gets one of its own. -/
theorem Standing.rerooted (h : Standing [] u) (hnone : ¬ u.documentElement?.isSome = true)
    (hsize : u.size = t.size) : Rerooted t u.rooted := by
  obtain ⟨hgrown, hcontent, hchildren, -, hadded⟩ :=
    h.linked.grown_attach (.element (.ofTag "HTML")) (by simp) h.root (by simp)
  have hbefore : u.childElements Tree.root = [] := by
    rw [← documentElement?_eq_none_iff]
    simpa using hnone
  have hold : (u.children Tree.root).filter (u.wrapper Tree.root "HTML").2.isElement = [] := by
    rw [← hbefore, childElements]
    refine List.filter_congr fun id hid => ?_
    rw [isElement, element?_congr (content?_wrapper_of_lt "HTML" (h.linked.child_lt_size hid)),
      isElement]
  rw [wrapper_eq] at hold
  rw [Tree.rooted, if_neg hnone, wrapper_eq]
  refine ⟨by rw [hadded, hsize], hsize ▸ hcontent, ?_, hsize ▸ hchildren⟩
  rw [childElements, hgrown.added, List.filter_append, hold, ← hsize,
    List.filter_cons_of_pos (isElement_iff.mpr ⟨_, hcontent⟩)]
  rfl

/-- Both trees given a root where they have none. -/
theorem Standing.thinned_rooted (h : Standing [] u) (hthinned : u.Thinned u') :
    (∀ id, id.index < u.rooted.size → SameName u.rooted u'.rooted id) ∧
      (u'.rooted.size = u.rooted.size ∨ Rerooted u.rooted u'.rooted) := by
  have hsize := hthinned.size
  have hroot := lt_size_of_content? h.root
  by_cases hsome' : u'.documentElement?.isSome = true
  · have hsome := hthinned.documentElement?_isSome hsome'
    rw [Tree.rooted, if_pos hsome, Tree.rooted, if_pos hsome']
    exact ⟨fun id _ => sameName_of_content (hthinned.content id), .inl hsize⟩
  · by_cases hsome : u.documentElement?.isSome = true
    -- The root of the source has been taken out: only the watched tree is given another.
    · have hrooted : u.rooted = u := by rw [Tree.rooted, if_pos hsome]
      rw [hrooted]
      refine ⟨fun id hid => sameName_of_content ?_, .inr ((h.thinned hthinned).rerooted hsome' hsize)⟩
      rw [Tree.rooted, if_neg hsome', content?_wrapper_of_lt _ (hsize.symm ▸ hid)]
      exact hthinned.content id
    · rw [Tree.rooted, if_neg hsome, Tree.rooted, if_neg hsome', wrapper_eq, wrapper_eq, hsize]
      refine ⟨fun id _ => sameName_of_content ?_, .inl ?_⟩
      · rw [content?_attach, content?_attach, content?_create, content?_create, hsize]
        split
        · rfl
        · exact hthinned.content id
      · rw [size_attach, size_attach, size_create, size_create, hsize]

end Growth

/-! ## In lockstep -/

/-- All that the observer does to trees is to take nodes out and to edit attributes. -/
def Observer.Detaching (observer : Observer ω) : Prop :=
  ∀ event t memory, ∃ ms : List Mutation, (∀ m ∈ ms, m.Detaches) ∧
    (observer event (t, memory)).1 = t.mutateAll ms

theorem Observer.detaching_all {observers : List (Observer ω)} (h : ∀ o ∈ observers, o.Detaching) :
    (Observer.all observers).Detaching := by
  intro event t memory
  induction observers generalizing t memory with
  | nil => exact ⟨[], by simp, rfl⟩
  | cons o rest ih =>
    obtain ⟨ms, hdetaches, hms⟩ := h o List.mem_cons_self event t memory
    obtain ⟨ms', hdetaches', hms'⟩ := ih (fun o ho => h o (.tail _ ho))
      (o event (t, memory)).1 (o event (t, memory)).2
    refine ⟨ms ++ ms', fun m hm => (List.mem_append.mp hm).elim (hdetaches m) (hdetaches' m), ?_⟩
    rw [mutateAll_append, ← hms, ← hms']
    rfl

/-- What an event is told with, attributes aside. -/
def Notice.outline (n : Notice) : Event × Option Content :=
  (n.event, n.content.map Content.stripped)

/-- The watched tree is thinned, and of each event the same is told. -/
def Undisturbed (t : Tree) (log : List Notice) (t' : Tree) (memory : ω × List Notice) : Prop :=
  t.Thinned t' ∧ memory.2.map Notice.outline = log.map Notice.outline

theorem Observer.Detaching.lockstep {o : Observer ω} (ho : o.Detaching) :
    Lockstep o.recorded Undisturbed where
  thinned h := h.1
  text s h hstanding := ⟨hstanding.thinned_text h.1 s, h.2⟩
  element e h hstack hstanding := ⟨(thinned_sprout h.1 hstack hstanding e).1, h.2⟩
  tell := by
    intro t log t' memory kind id h hl _
    obtain ⟨hthinned, hlog⟩ := h
    obtain ⟨ms, hdetaches, hms⟩ := ho ⟨kind, id⟩ t' memory.1
    have htree : (o.recorded ⟨kind, id⟩ (t', memory)).1 = t'.mutateAll ms := hms
    have htold : (o.recorded ⟨kind, id⟩ (t', memory)).2.2 =
        memory.2 ++ [⟨⟨kind, id⟩, t'.content? id⟩] := rfl
    refine ⟨?_, ?_⟩
    · rw [htree]
      exact hthinned.mutateAll hl hdetaches
    · rw [htold, List.map_append, List.map_append, hlog]
      simp [Notice.outline, hthinned.content]

/-! ## Edits -/

/-- The edit takes a node out or edits attributes, if it does anything. -/
def Edit.Detaches : Edit → Prop
  | .remove | .removeParent | .setAttribute _ _ | .eraseAttribute _ | .addClass _ | .nothing => True
  | .appendText _ | .appendElement _ | .insertElementBefore _ | .moveToRoot => False

theorem Edit.exists_mutations {edit : Edit} (h : edit.Detaches) (t : Tree) (id : NodeId) :
    ∃ ms : List Mutation, (∀ m ∈ ms, m.Detaches) ∧ edit.apply t id = t.mutateAll ms := by
  have hone : ∀ m : Mutation, m.Detaches → ∀ m' ∈ [m], m'.Detaches := by
    intro m hm m' hm'
    rw [List.mem_singleton.mp hm']
    exact hm
  cases edit with
  | remove => exact ⟨[.remove id], hone _ trivial, rfl⟩
  | removeParent =>
    cases hparent : t.parent? id with
    | none => exact ⟨[], by simp, by simp only [apply, hparent]; rfl⟩
    | some parent =>
      exact ⟨[.remove parent], hone _ trivial, by simp only [apply, hparent]; rfl⟩
  | setAttribute name value =>
    exact ⟨[.editAttributes id (·.set name value)], hone _ trivial, rfl⟩
  | eraseAttribute name => exact ⟨[.editAttributes id (·.erase name)], hone _ trivial, rfl⟩
  | addClass word => exact ⟨[.editAttributes id (·.addClasses [word])], hone _ trivial, rfl⟩
  | nothing => exact ⟨[], by simp, rfl⟩
  | appendText s => exact h.elim
  | appendElement tag => exact h.elim
  | insertElementBefore tag => exact h.elim
  | moveToRoot => exact h.elim

theorem EditRule.detaching {rule : EditRule} (h : rule.edit.Detaches) :
    (rule.observer : Observer ω).Detaching := by
  intro event t memory
  simp only [observer]
  split
  · exact rule.edit.exists_mutations h t event.node
  · exact ⟨[], by simp, rfl⟩

/-! ## Whole documents -/

/-- **Observers that take out and edit do not disturb the parse.** A document in which nothing is
moved is read to its end also with such observers, with the same issues. They are told of the same
events as if nobody watched, and all nodes have the same names and texts. There is one more node
where the document has lost its root by the end: the empty one that it is given instead. -/
theorem undisturbed {observers : List (Observer ω)} (hobservers : ∀ o ∈ observers, o.Detaching)
    (memory : ω) {p p' : Parser} {input : String} {t : Tree}
    (hparse : p.parse input = (.ok t, p')) (hunmoved : Unmoved p'.issues) :
    ∃ t' memory' log,
      p.parseWith (Observer.all observers) memory input = (.ok t', memory', p') ∧
      p.parseWith (Observer.all observers).recorded (memory, []) input =
        (.ok t', (memory', log), p') ∧
      log.map (·.event) = (sourceLog input).map (·.event) ∧
      (∀ id, id.index < t.size → SameName t t' id) ∧
      (t'.size = t.size ∨ Rerooted t t') := by
  have hlockstep := (Observer.detaching_all hobservers).lockstep
  have hstart : Undisturbed .empty [] .empty (memory, []) := ⟨.refl _, rfl⟩
  obtain ⟨u, u', ⟨memory', log⟩, hstanding, ⟨hthinned, hlog⟩, rfl, hwatched⟩ :=
    hlockstep.parse hstart (recorded_of_parse hparse) hunmoved
  obtain ⟨hnames, hsize⟩ := hstanding.thinned_rooted hthinned
  refine ⟨u'.rooted, memory', log, ?_, hwatched, ?_, hnames, hsize⟩
  · rw [parseWith_recorded, hwatched]
  · have hevents := congrArg (List.map Prod.fst) hlog
    simpa [Notice.outline, Function.comp_def] using hevents

/-- Takes out each paragraph when it starts, and what holds a text when that is made. -/
def takingOut : List (Observer Unit) :=
  [EditRule.observer ⟨.elementStarted, some "P", .remove⟩,
    EditRule.observer ⟨.textCreated, none, .removeParent⟩]

theorem detaching_takingOut : ∀ o ∈ takingOut, o.Detaching := by
  intro o ho
  rcases List.mem_cons.mp ho with rfl | ho
  · exact EditRule.detaching trivial
  · rw [List.mem_singleton.mp ho]
    exact EditRule.detaching trivial

/-- The paragraph is out when its content comes, and the `B` is out when the second text does. -/
theorem undisturbed_takingOut :
    (∀ o ∈ takingOut, o.Detaching) ∧
      ∃ t p' t', ({} : Parser).parse "<p>a<b>c" = (.ok t, p') ∧ Unmoved p'.issues ∧
        (({} : Parser).parseWith (Observer.all takingOut) () "<p>a<b>c").1 = .ok t' ∧
        ∀ id, id.index < t.size → SameName t t' id := by
  have hfound : (({} : Parser).parse "<p>a<b>c").1.toOption.map Tree.size = some 7 := by
    decide +kernel
  have hissues : (({} : Parser).parse "<p>a<b>c").2.issues = [] := by decide +kernel
  obtain ⟨t, p', hparse, hunmoved, -⟩ := exists_parsed hfound hissues
  obtain ⟨t', memory', log, hwatched, -, -, hnames, -⟩ :=
    undisturbed detaching_takingOut () hparse hunmoved
  exact ⟨detaching_takingOut, t, p', t', hparse, hunmoved, by rw [hwatched], hnames⟩

/-- A root that is taken out as it ends is made good, by a node that the document does not have when
nobody watches. -/
theorem not_all_same_name : ¬ ∀ (observers : List (Observer Unit)) (input : String) (t t' : Tree)
    (p' q' : Parser), (∀ o ∈ observers, o.Detaching) → ({} : Parser).parse input = (.ok t, p') →
    Unmoved p'.issues →
    ({} : Parser).parseWith (Observer.all observers) () input = (.ok t', (), q') →
    ∀ id, SameName t t' id := by
  intro h
  have hobservers : ∀ o ∈ ([EditRule.observer ⟨.elementEnded, some "HTML", .remove⟩] :
      List (Observer Unit)), o.Detaching := by
    intro o ho
    rw [List.mem_singleton.mp ho]
    exact EditRule.detaching trivial
  have hfound : (({} : Parser).parse "<html>").1.toOption.map (·.name? ⟨2⟩) = some none := by
    decide +kernel
  have hissues : (({} : Parser).parse "<html>").2.issues = [] := by decide +kernel
  have hfound' : (({} : Parser).parseWith (Observer.all
      [EditRule.observer ⟨.elementEnded, some "HTML", .remove⟩]) () "<html>").1.toOption.map
        (·.name? ⟨2⟩) = some (some "HTML") := by
    decide +kernel
  obtain ⟨t, p', hparse, hunmoved, hname⟩ := exists_parsed hfound hissues
  obtain ⟨t', hok, hname'⟩ := exists_ok hfound'
  have hsame := h _ "<html>" t t' p' _ hobservers hparse hunmoved (Prod.ext hok rfl) ⟨2⟩
  rw [SameName, hname, hname'] at hsame
  cases hsame.1

end Markup

end Hypertext
