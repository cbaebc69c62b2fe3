/-
Attribute rules at work. When an element starts, each rule looks at it with the
attributes that the rules before it have left, and at the elements above it with
all that any rule has done to them; then it edits the attributes or leaves them
(`rewriteAll`). What stands above an element has started before it, and nothing
is done to it afterwards: so all this can be said of the finished tree alone
(`Rewritten`), and what is said there is true of one tree only
(`Rewritten.unique`).

All this is for rules that make only comparisons with a meaning; such rules do
not fail.
-/
import Hypertext.Proofs.Markup.Dressing
import Hypertext.Proofs.Markup.Tidy
import Hypertext.Proofs.Pipeline.Independence
import Hypertext.Proofs.Selector.Agreement

namespace Hypertext

namespace Tree

/-- Looking up from the node the two trees are the same, but for the attributes of the node itself. -/
structure SameAbove (t t' : Tree) (id : NodeId) : Prop where
  ancestors : t'.ancestors id = t.ancestors id
  frame : (t'.content? id).map Content.stripped = (t.content? id).map Content.stripped
  content : ∀ x ∈ t.ancestors id, t'.content? x = t.content? x

variable {t t' : Tree} {id : NodeId}

theorem SameOutlook.sameAbove (h : SameOutlook t t' id) : SameAbove t t' id where
  ancestors := h.ancestors
  frame := by rw [h.content id List.mem_cons_self]
  content x hx := h.content x (.tail _ hx)

theorem sameAbove_of_stripped (hshape : t'.stripped = t.stripped)
    (hcontent : ∀ x ∈ t.ancestors id, t'.content? x = t.content? x) : SameAbove t t' id where
  ancestors := ancestors_of_stripped hshape id
  frame := content?_of_stripped hshape id
  content := hcontent

/-- They are the same where the node is given the same attributes. -/
theorem SameAbove.dressed (h : SameAbove t t' id) (as : Attributes) :
    SameOutlook (t.modifyAttributes id fun _ => as) (t'.modifyAttributes id fun _ => as) id where
  ancestors := by rw [ancestors_modifyAttributes, ancestors_modifyAttributes, h.ancestors]
  content x hx := by
    rw [ancestors_modifyAttributes] at hx
    rw [content?_modifyAttributes, content?_modifyAttributes]
    split
    · next hx =>
      have hdressed : ∀ c : Option Content, c.map (·.dressed fun _ => as) =
          (c.map Content.stripped).map (·.dressed fun _ => as) := by
        rintro (_ | ⟨_ | e | s⟩) <;> rfl
      rw [hx, hdressed, h.frame, ← hdressed]
    · next hne => exact h.content x ((List.mem_cons.mp hx).resolve_left hne)

end Tree

namespace Pipeline

open Markup Selector

namespace AttributeRule

/-- The rule makes only comparisons with a meaning. -/
def Supported (r : AttributeRule) : Prop :=
  ∀ s ∈ r.selectors, s.Supported

/-- The attributes of an element that the rule matches, once it has. -/
def edit (r : AttributeRule) (as : Attributes) : Attributes :=
  match r.action with
  | .add => as.insert r.attr
  | .delete => as.erase r.attr.name

/-- What the rule makes of the attributes `as`, where these are the ones that the element has. -/
def rewrite (r : AttributeRule) (t : Tree) (id : NodeId) (as : Attributes) : Attributes :=
  if ∃ s ∈ r.selectors, s.matches (t.modifyAttributes id fun _ => as) id = .ok true then r.edit as
  else as

variable {r : AttributeRule} {t t' : Tree} {id : NodeId}

theorem rewrite_congr (r : AttributeRule) (h : t.SameAbove t' id) (as : Attributes) :
    r.rewrite t' id as = r.rewrite t id as := by
  simp only [rewrite, matches_congr _ (h.dressed as)]

/-- The attributes that the element has in the tree are no matter. -/
theorem rewrite_modifyAttributes (f : Attributes → Attributes) (as : Attributes) :
    r.rewrite (t.modifyAttributes id f) id as = r.rewrite t id as := by
  simp only [rewrite, Tree.modifyAttributes_modifyAttributes]

/-- A rule rewrites the attributes of an element that starts, and does not fail. -/
theorem started_eq (hr : r.Supported) (t : Tree) (id : NodeId) :
    r.started t id = .ok (t.modifyAttributes id (r.rewrite t id)) := by
  simp only [started, anyMatches_eq t id hr, Except.map]
  by_cases helement : t.isElement id = true
  · obtain ⟨e, he⟩ := Tree.isElement_iff.mp helement
    have hself : (t.modifyAttributes id fun _ => e.attributes) = t := by
      refine (Tree.modifyAttributes_congr ?_).trans (Tree.modifyAttributes_id t id)
      rw [he]
      rfl
    have hrewrite : r.rewrite t id e.attributes =
        if Picks t r.selectors id then r.edit e.attributes else e.attributes := by
      simp only [rewrite, hself, picks_iff hr]
    by_cases hp : Picks t r.selectors id
    · have hedited : t.modifyAttributes id (r.rewrite t id) = t.modifyAttributes id r.edit := by
        refine Tree.modifyAttributes_congr ?_
        rw [he, Option.map_some, Option.map_some, Content.dressed, Content.dressed, hrewrite,
          if_pos hp]
      rw [hedited]
      obtain ⟨selectors, action, attr⟩ := r
      simp only [hp, decide_true, if_true]
      cases action <;> rfl
    · have hleft : t.modifyAttributes id (r.rewrite t id) = t := by
        refine (Tree.modifyAttributes_congr ?_).trans (Tree.modifyAttributes_id t id)
        rw [he, Option.map_some, Option.map_some, Content.dressed, Content.dressed, hrewrite,
          if_neg hp]
      simp [hp, hleft]
  · have hp : ¬ Picks t r.selectors id := fun hp => helement (picks_isElement hp)
    simp [hp, Tree.modifyAttributes_of_not_element helement]

end AttributeRule

/-- What rules, one after the other, make of the attributes of an element. -/
def rewriteAll (rules : List AttributeRule) (t : Tree) (id : NodeId) (as : Attributes) : Attributes :=
  rules.foldl (fun as r => r.rewrite t id as) as

/-- The tree `u` is `t` with the attributes of the `sources` rewritten by the rules. Each rule sees
the element as the rules before it have left it, and what is above the element as it is in `u`. -/
structure Rewritten (rules : List AttributeRule) (sources : List NodeId) (t u : Tree) : Prop where
  shape : u.stripped = t.stripped
  silent : ∀ id, id ∉ sources → u.content? id = t.content? id
  source : ∀ id ∈ sources, u.content? id = (t.content? id).map (·.dressed (rewriteAll rules u id))

section Rewriting

variable {rules : List AttributeRule} {sources : List NodeId} {t t' u v : Tree} {id : NodeId}

theorem rewriteAll_congr (rules : List AttributeRule) (h : t.SameAbove t' id) :
    rewriteAll rules t' id = rewriteAll rules t id := by
  funext as
  simp only [rewriteAll, AttributeRule.rewrite_congr _ h]

theorem rewriteAll_modifyAttributes (rules : List AttributeRule) (f : Attributes → Attributes) :
    rewriteAll rules (t.modifyAttributes id f) id = rewriteAll rules t id := by
  funext as
  simp only [rewriteAll, AttributeRule.rewrite_modifyAttributes]

theorem rewritten_nil (rules : List AttributeRule) (t : Tree) : Rewritten rules [] t t where
  shape := rfl
  silent _ _ := rfl
  source _ hid := by cases hid

/-- One more element starts, which is above none of those that have. -/
theorem Rewritten.concat (h : Rewritten rules sources t u) (hl : t.Linked)
    (hapart : ∀ x ∈ sources, ¬ t.Covers id x) :
    Rewritten rules (sources ++ [id]) t (u.modifyAttributes id (rewriteAll rules u id)) where
  shape := by rw [Tree.stripped_modifyAttributes, h.shape]
  silent x hx := by
    rw [List.mem_append, List.mem_singleton, not_or] at hx
    rw [Tree.content?_modifyAttributes, if_neg hx.2, h.silent x hx.1]
  source x hx := by
    rw [Tree.content?_modifyAttributes]
    rcases List.mem_append.mp hx with hold | hnew
    · have hne : x ≠ id := fun heq => hapart x hold (.inl heq.symm)
      -- what stands above an element that started before does not change any more
      have habove : u.SameAbove (u.modifyAttributes id (rewriteAll rules u id)) x := by
        refine Tree.sameAbove_of_stripped (Tree.stripped_modifyAttributes _) fun y hy => ?_
        rw [Tree.ancestors_of_stripped h.shape, hl.mem_ancestors] at hy
        rw [Tree.content?_modifyAttributes, if_neg]
        rintro rfl
        exact hapart x hold (.inr hy)
      rw [if_neg hne, rewriteAll_congr rules habove, h.source x hold]
    · have hsilent : id ∉ sources := fun hid => hapart id hid (.refl t id)
      rw [List.mem_singleton.mp hnew, if_pos rfl, rewriteAll_modifyAttributes, h.silent id hsilent]

/-- There is no more than one such tree: what is above settles what is below. -/
theorem Rewritten.unique (h : Rewritten rules sources t u) (h' : Rewritten rules sources t v)
    (hl : t.Linked) : u = v := by
  have hshape : u.stripped = v.stripped := h.shape.trans h'.shape.symm
  refine Tree.eq_of_stripped hshape fun id => ?_
  -- from the root downwards: the two trees agree on all that is above the node
  induction id using hl.wellFounded_above.induction with
  | _ id ih =>
    by_cases hid : id ∈ sources
    · have habove : v.SameAbove u id := by
        refine Tree.sameAbove_of_stripped hshape fun x hx => ih x ?_
        rwa [Tree.ancestors_of_stripped h'.shape, hl.mem_ancestors] at hx
      rw [h.source id hid, h'.source id hid, rewriteAll_congr rules habove]
    · rw [h.silent id hid, h'.silent id hid]

end Rewriting

/-! ## Pipelines -/

section Pipelines

variable {ω : Type} {rules : List AttributeRule} {stages : List (Stage Focus ω)} {event : Event}

/-- An element that starts goes from rule to rule. -/
theorem relay_started (hstages : Staffed (rules.map Rule.attr) stages)
    (hrules : ∀ r ∈ rules, r.Supported) (hkind : event.kind = .elementStarted) (t : Tree)
    (memory : ω) :
    relay event stages t memory =
      (t.modifyAttributes event.node (rewriteAll rules t event.node), { stages, memory }) := by
  induction rules generalizing t stages with
  | nil =>
    rw [staffed_nil.mp hstages]
    exact Prod.ext (Tree.modifyAttributes_id t event.node).symm rfl
  | cons r rules ih =>
    obtain ⟨⟨processor, state⟩, rest, rfl, rfl, hrest⟩ := staffed_cons.mp hstages
    have hreact : ((Rule.attr r).processor : Processor Focus ω).react event ⟨t, state, memory⟩ =
        (⟨t.modifyAttributes event.node (r.rewrite t event.node), state, memory⟩, none) := by
      simp only [Rule.processor, Rule.step, hkind,
        AttributeRule.started_eq (hrules r List.mem_cons_self), Except.map]
    have ih := fun t => ih hrest (fun r hr => hrules r (.tail _ hr)) t
    simp only [relay, hreact, ih, rewriteAll_modifyAttributes,
      Tree.modifyAttributes_modifyAttributes]
    rfl

theorem relay_other (hstages : Staffed (rules.map Rule.attr) stages)
    (hkind : event.kind ≠ .elementStarted) (t : Tree) (memory : ω) :
    relay event stages t memory = (t, { stages, memory }) := by
  induction rules generalizing t stages with
  | nil =>
    rw [staffed_nil.mp hstages]
    rfl
  | cons r rules ih =>
    obtain ⟨⟨processor, state⟩, rest, rfl, rfl, hrest⟩ := staffed_cons.mp hstages
    have hreact : ((Rule.attr r).processor : Processor Focus ω).react event ⟨t, state, memory⟩ =
        (⟨t, state, memory⟩, none) := by
      simp only [Rule.processor, Rule.step]
      cases hevent : event.kind with
      | elementStarted => exact absurd hevent hkind
      | elementEnded | textCreated => rfl
    simp only [relay, hreact, ih hrest]

theorem dresses_observer (hstages : Staffed (rules.map Rule.attr) stages)
    (hrules : ∀ r ∈ rules, r.Supported) (memory : ω) :
    (observer : Observer (Run Focus ω)).Dresses (· = { stages, memory }) := by
  rintro event t t' run rfl h
  by_cases hkind : event.kind = .elementStarted
  · refine ⟨rewriteAll rules t event.node, _, rfl, relay_started hstages hrules hkind t memory, ?_⟩
    rw [← rewriteAll_congr rules h.sameAbove]
    exact relay_started hstages hrules hkind t' memory
  · refine ⟨fun as => as, _, rfl, ?_, ?_⟩
    · rw [Tree.modifyAttributes_id]
      exact relay_other hstages hkind t memory
    · rw [Tree.modifyAttributes_id]
      exact relay_other hstages hkind t' memory

/-- What has been told rewrites the elements that have started. -/
theorem rewritten_replay (hstages : Staffed (rules.map Rule.attr) stages)
    (hrules : ∀ r ∈ rules, r.Supported) {t : Tree} (hl : t.Linked) (log : List Notice)
    (hapart : (nodesOf .elementStarted log).Pairwise fun x y => ¬ t.Covers y x) (memory : ω) :
    ∃ u, replay observer log (t, ({ stages, memory } : Run Focus ω)) = (u, { stages, memory }) ∧
      Rewritten rules (nodesOf .elementStarted log) t u := by
  induction log using List.reverseRecOn with
  | nil => exact ⟨t, rfl, rewritten_nil rules t⟩
  | append_singleton log n ih =>
    rw [nodesOf_append, List.pairwise_append] at hapart
    obtain ⟨u, hreplay, hrewritten⟩ := ih hapart.1
    rw [replay_concat, hreplay]
    by_cases hkind : n.event.kind = .elementStarted
    · have hone : nodesOf .elementStarted [n] = [n.event.node] := nodesOf_cons_of_eq hkind
      rw [nodesOf_append, hone]
      rw [hone] at hapart
      exact ⟨_, relay_started hstages hrules hkind u memory,
        hrewritten.concat hl fun x hx => hapart.2.2 x hx _ (List.mem_singleton.mpr rfl)⟩
    · rw [nodesOf_concat_of_ne hkind]
      exact ⟨u, relay_other hstages hkind u memory, hrewritten⟩

variable {p : Pipeline Focus ω}

/-- A pipeline of attribute rules rewrites the elements of start tags. -/
theorem exists_rewritten (hp : Staffed (rules.map Rule.attr) p.stages)
    (hrules : ∀ r ∈ rules, r.Supported) {q q' : Parser} {input : String} {t : Tree}
    (hparse : q.parse input = (.ok t, q')) (memory : ω) :
    ∃ u, (p.treeOf memory input).1 = .ok u ∧ Rewritten rules (sourceElements input) t u := by
  have hfresh : Staffed (rules.map Rule.attr)
      (freshStages (rules.map Rule.attr) : List (Stage Focus ω)) :=
    staffed_freshStages _
  obtain ⟨u, run, hreplay, rfl, hparsed⟩ :=
    parseWith_eq_dressed (dresses_observer hfresh hrules memory) rfl hparse
  obtain ⟨v, hreplay', hrewritten⟩ := rewritten_replay hfresh hrules (tidy_of_parse hparse).1.linked
    (sourceLog input) (enrolled_of_parse hparse).apart memory
  obtain rfl : u = v := congrArg Prod.fst (hreplay.symm.trans hreplay')
  have hsame : p.parser.parseWith observer
      { stages := freshStages (rules.map Rule.attr), memory } input =
        q.parseWith observer { stages := freshStages (rules.map Rule.attr), memory } input := rfl
  refine ⟨u, ?_, hrewritten⟩
  simp only [Pipeline.treeOf, hp.resetAll, hsame, hparsed]

end Pipelines

end Pipeline

end Hypertext
