/-
A document read under observers, beside the same document read with nobody
watching. Where the observers have at most taken nodes out and edited
attributes, the two growths stay in lockstep: the stack is kept apart from the
tree, so what is open stays open; the nodes have the same numbers and names;
and between a new element and what was open before stands what was made for it,
which nobody has had the time to take out.

That is so for elements that come before or inside the root. One that comes
after it goes where the root is, if there still is one: always where observers
take out nothing (`KeepsShape`).

What else the two have in common stays so where it is kept by what observers do
and by new nodes (`Lockstep`): that is what one step has to show for all of a
document (`Lockstep.parse`).
-/
import Hypertext.Proofs.Markup.Tour
import Hypertext.Proofs.Tree.Stripped

namespace Hypertext

namespace Tree

/-- Of `t` the tree `t'` has lost some nodes at most, and its attributes may be others. -/
def Thinned (t t' : Tree) : Prop :=
  ∃ gone, (∀ x ∈ gone, x.index < t.size) ∧ Pruned gone t.stripped t'.stripped

variable {t t' : Tree} {id : NodeId}

theorem Pruned.thinned {gone : List NodeId} (h : Pruned gone t t') (hknown : ∀ x ∈ gone, x.index < t.size) :
    Thinned t t' :=
  ⟨gone, hknown, h.stripped⟩

theorem Thinned.size (h : Thinned t t') : t'.size = t.size := by
  obtain ⟨gone, -, hpruned⟩ := h
  simpa using hpruned.size

theorem Thinned.content (h : Thinned t t') (id : NodeId) :
    (t'.content? id).map Content.stripped = (t.content? id).map Content.stripped := by
  obtain ⟨gone, -, hpruned⟩ := h
  simpa using hpruned.content id

theorem Thinned.tag?_eq (h : Thinned t t') : t'.tag? = t.tag? := by
  obtain ⟨gone, -, hpruned⟩ := h
  funext id
  simpa using congrFun hpruned.tag?_eq id

theorem Thinned.documentElement?_isSome (h : Thinned t t')
    (hsome : t'.documentElement?.isSome = true) : t.documentElement?.isSome = true := by
  obtain ⟨gone, -, hpruned⟩ := h
  simpa using hpruned.documentElement?_isSome (by simpa using hsome)

end Tree

namespace Markup

namespace Growth

variable {ω : Type}

/-! ## Alike under growth -/

section Alike

variable {os : List OpenElement} {t t' : Tree} {gone : List NodeId}

theorem standing_stripped : Standing os t.stripped ↔ Standing os t := by
  have hholds : ∀ id, (∃ c, t.stripped.content? id = some c ∧ ∀ s, c ≠ .text s) ↔
      ∃ c, t.content? id = some c ∧ ∀ s, c ≠ .text s := by
    intro id
    rw [Tree.content?_stripped]
    cases t.content? id with
    | none => simp
    | some c => cases c <;> simp [Content.stripped]
  constructor
  · intro h
    exact ⟨Tree.linked_stripped.mp h.linked,
      by simpa [Content.stripped_eq_document] using h.root, fun o ho => (hholds _).mp (h.holds o ho)⟩
  · intro h
    exact ⟨Tree.linked_stripped.mpr h.linked,
      by simpa [Content.stripped_eq_document] using h.root, fun o ho => (hholds _).mpr (h.holds o ho)⟩

theorem Standing.pruned (h : Standing os t) (hpruned : Tree.Pruned gone t t') : Standing os t' where
  linked := hpruned.linked h.linked
  root := (hpruned.content _).trans h.root
  holds o ho := by
    rw [hpruned.content]
    exact h.holds o ho

theorem Standing.thinned (h : Standing os t) (hthinned : t.Thinned t') : Standing os t' := by
  obtain ⟨gone, -, hpruned⟩ := hthinned
  exact standing_stripped.mp ((standing_stripped.mpr h).pruned hpruned)

/-- A new node is attached in both. -/
theorem Standing.pruned_attach (h : Standing os t) (hknown : ∀ x ∈ gone, x.index < t.size)
    (hpruned : Tree.Pruned gone t t') {content : Content} (hcontent : content ≠ .document) :
    Tree.Pruned gone ((t.create content).2.attach (top os) ⟨t.size⟩)
      ((t'.create content).2.attach (top os) ⟨t.size⟩) := by
  obtain ⟨c, hc, htext⟩ := h.top_holds
  have hfits := Tree.fits_create h.linked hcontent hc htext
  exact (hpruned.create content).attach (h.linked.create content) hfits.parent_lt_size
    hfits.child_lt_size fun hmem => Nat.lt_irrefl _ (hknown _ hmem)

/-- So is a new text where attributes differ. -/
theorem Standing.thinned_text (h : Standing os t) (hthinned : t.Thinned t') (s : String) :
    ((t.create (.text s)).2.attach (top os) ⟨t.size⟩).Thinned
      ((t'.create (.text s)).2.attach (top os) ⟨t.size⟩) := by
  obtain ⟨gone, hknown, hpruned⟩ := hthinned
  have hattached := (standing_stripped.mpr h).pruned_attach (by simpa using hknown) hpruned
    (show Content.text s ≠ .document by simp)
  refine ⟨gone, fun x hx => ?_, by simpa [Content.stripped] using hattached⟩
  rw [Tree.size_attach, Tree.size_create]
  exact Nat.lt_succ_of_lt (hknown x hx)

end Alike

/-! ## Alike under new elements -/

section Sprouts

variable {α β : Type} {g : Growth α} {g' : Growth β} {gone : List NodeId}

theorem pruned_sprouted (h : Tree.Pruned gone g.tree g'.tree) (hknown : ∀ x ∈ gone, x.index < g.tree.size)
    (hstack : g'.stack = g.stack) (hstanding : Standing g.stack g.tree) (e : Element) :
    Tree.Pruned gone (g.sprouted e) (g'.sprouted e) := by
  obtain ⟨c, hc, htext⟩ := hstanding.top_holds
  have hl := hstanding.linked.create (.element e)
  have hfits := Tree.fits_create hstanding.linked (show Content.element e ≠ .document by simp) hc htext
  have hcreated : ∀ x ∈ gone, x.index < (g.tree.create (.element e)).2.size := by
    intro x hx
    rw [Tree.size_create]
    exact Nat.lt_succ_of_lt (hknown x hx)
  obtain ⟨hsame, hpruned⟩ := (h.create (.element e)).shelter hl hcreated hfits e.tag
  obtain ⟨hl', hfits'⟩ := hl.shelter hfits e.tag
  simp only [Growth.sprouted, innermost_eq_top, hstack, h.size, hsame]
  exact hpruned.attach hl' hfits'.parent_lt_size hfits'.child_lt_size
    fun hmem => Nat.lt_irrefl _ (hknown _ hmem)

/-- Nothing that is gone stands between a new element and what was open before. -/
theorem Extended.pruned_between {t t' u : Tree} {os new : List OpenElement} {x : OpenElement}
    (h : Extended t os (x :: new) t') (htop : (top os).index < t.size)
    (hknown : ∀ y ∈ gone, y.index < t.size) (hpruned : Tree.Pruned gone t' u) :
    (u.ancestors x.id).takeWhile (· ≠ top os) = new.map (·.id) := by
  have hl := h.grown.linked
  have hline : t'.ancestors x.id = new.map (·.id) ++ top os :: t'.ancestors (top os) :=
    (List.cons.inj h.line).2
  have habove : t'.Above (top os) x.id := by
    rw [← hl.mem_ancestors, hline]
    simp
  rw [hpruned.takeWhile_ancestors hl habove, h.between htop]
  intro b hb hbx hmem
  have hnew : b ∈ (x :: new).map (·.id) := by
    rcases hbx with rfl | hbx
    · exact List.mem_cons_self
    · rw [← hl.mem_ancestors, hline, List.mem_append, List.mem_cons, hl.mem_ancestors] at hbx
      rcases hbx with hbx | rfl | hbx
      · exact List.mem_cons_of_mem _ hbx
      · exact absurd hb (hl.acyclic _)
      · exact absurd (hb.trans hbx) (hl.acyclic _)
  obtain ⟨w, hw, rfl⟩ := List.mem_map.mp hnew
  exact Nat.not_lt.mpr (h.fresh w hw).1 (hknown _ hmem)

/-- The same is opened between. -/
theorem stack_sprout_pruned (h : Tree.Pruned gone g.tree g'.tree)
    (hknown : ∀ x ∈ gone, x.index < g.tree.size) (hstack : g'.stack = g.stack)
    (hstanding : Standing g.stack g.tree) (e : Element) :
    (g'.sprout e).stack = (g.sprout e).stack := by
  obtain ⟨c, hc, -⟩ := hstanding.top_holds
  obtain ⟨ws, hws, hsprout, hextended, -⟩ := exists_extended hstanding e
  rw [hsprout, sprout_eq, hstack, h.size,
    hextended.pruned_between (Tree.lt_size_of_content? hc) hknown
      (pruned_sprouted h hknown hstack hstanding e), map_silent fun w hw => (hws w hw).1]

/-- The growth of a tree without attributes. -/
def stripped (g : Growth α) : Growth α :=
  { g with tree := g.tree.stripped }

theorem stripped_sprouted (g : Growth α) (e : Element) :
    (g.sprouted e).stripped = g.stripped.sprouted { tag := e.tag } := by
  have hcreate : (g.tree.stripped.create (.element { tag := e.tag })).2 =
      (g.tree.create (.element e)).2.stripped := (Tree.stripped_create (.element e)).symm
  have hinner : g.stripped.innermost = g.innermost := rfl
  simp only [sprouted, hinner]
  simp only [stripped, hcreate, Tree.stripped_shelter, Tree.stripped_attach, Tree.size_stripped]

theorem stack_stripped_sprout (g : Growth α) (e : Element) :
    (g.stripped.sprout { tag := e.tag }).stack = (g.sprout e).stack := by
  rw [sprout_eq, sprout_eq, ← stripped_sprouted]
  simp only [stripped, Tree.ancestors_stripped, Tree.size_stripped]
  rfl

/-- A new element comes in the same shelter where attributes differ. -/
theorem thinned_sprout (h : g.tree.Thinned g'.tree) (hstack : g'.stack = g.stack)
    (hstanding : Standing g.stack g.tree) (e : Element) :
    (g.sprouted e).Thinned (g'.sprouted e) ∧ (g'.sprout e).stack = (g.sprout e).stack := by
  obtain ⟨gone, hknown, hpruned⟩ := h
  have hpruned' : Tree.Pruned gone g.stripped.tree g'.stripped.tree := hpruned
  have hknown' : ∀ x ∈ gone, x.index < g.stripped.tree.size := by simpa [stripped] using hknown
  have hstanding' : Standing g.stripped.stack g.stripped.tree := standing_stripped.mpr hstanding
  constructor
  · obtain ⟨ws, -, -, hextended, -⟩ := exists_extended hstanding e
    refine ⟨gone, fun x hx => Nat.lt_of_lt_of_le (hknown x hx) hextended.grown.size_le, ?_⟩
    rw [stripped_sprouted, stripped_sprouted]
    exact pruned_sprouted hpruned' hknown' hstack hstanding' _
  · rw [← stack_stripped_sprout g e, ← stack_stripped_sprout g' e]
    exact stack_sprout_pruned hpruned' hknown' hstack hstanding' _

theorem hosts_congr (hshape : g'.tree.stripped = g.tree.stripped) (hstack : g'.stack = g.stack) :
    (g'.Late ↔ g.Late) ∧ g'.hosts = g.hosts := by
  have hroot := Tree.documentElement?_of_stripped hshape
  have hbody : g'.tree.body? = g.tree.body? := by
    rw [Tree.body?, ← Tree.section?_stripped, hshape, Tree.section?_stripped, Tree.body?]
  have hlate : g'.Late ↔ g.Late := by rw [Late, Late, innermost_eq_top, hstack, hroot]; rfl
  refine ⟨hlate, ?_⟩
  rw [Growth.hosts, Growth.hosts, hroot, hbody, hstack]
  simp only [hlate]

end Sprouts

/-! ## In lockstep -/

/-- What a plain tree and the log of its events have to do with a watched tree and its observer's
memory, where it is kept by all that the observer does and by all that growth does to both. -/
structure Lockstep (o : Observer ω) (R : Tree → List Notice → Tree → ω → Prop) : Prop where
  thinned : ∀ {t log t' m}, R t log t' m → t.Thinned t'
  tell : ∀ {t log t' m} kind {id : NodeId}, R t log t' m → t.Linked → id.index < t.size →
    R t (log ++ [⟨⟨kind, id⟩, t.content? id⟩]) (o ⟨kind, id⟩ (t', m)).1 (o ⟨kind, id⟩ (t', m)).2
  text : ∀ {t log t' m os} s, R t log t' m → Standing os t →
    R ((t.create (.text s)).2.attach (top os) ⟨t.size⟩) log
      ((t'.create (.text s)).2.attach (top os) ⟨t.size⟩) m
  element : ∀ {g : Growth (Unit × List Notice)} {g' : Growth ω} e,
    R g.tree g.memory.2 g'.tree g'.memory → g'.stack = g.stack → Standing g.stack g.tree →
    R (g.sprouted e) g.memory.2 (g'.sprouted e) g'.memory

/-- What the two trees have in common is all but attributes. -/
def KeepsShape (R : Tree → List Notice → Tree → ω → Prop) : Prop :=
  ∀ t log t' m, R t log t' m → t'.stripped = t.stripped

/-- The growth `g'` has been watched, and otherwise has gone like `g`. -/
structure Together (R : Tree → List Notice → Tree → ω → Prop) (g : Growth (Unit × List Notice))
    (g' : Growth ω) : Prop where
  stack : g'.stack = g.stack
  issues : g'.issues = g.issues
  alike : R g.tree g.memory.2 g'.tree g'.memory

section Together

variable {o : Observer ω} {R : Tree → List Notice → Tree → ω → Prop}
  {g : Growth (Unit × List Notice)} {g' : Growth ω} {tokens : List Token}

theorem Together.notify (hR : Lockstep o R) (h : Together R g g') (hl : g.tree.Linked) {id : NodeId}
    (hid : id.index < g.tree.size) (kind : EventKind) :
    Together R (Growth.notify unwatched.recorded kind id g) (Growth.notify o kind id g') :=
  ⟨h.stack, h.issues, hR.tell kind h.alike hl hid⟩

theorem Together.report (h : Together R g g') (index : Nat) (oddity : Oddity) :
    Together R (g.report index oddity) (g'.report index oddity) where
  stack := h.stack
  issues := by simp only [Growth.report, h.issues]
  alike := h.alike

/-! ### New nodes -/

theorem Together.takeText (hR : Lockstep o R) (h : Together R g g')
    (hstanding : Standing g.stack g.tree) (index : Nat) (s : String) :
    Together R (g.takeText unwatched.recorded index s) (g'.takeText o index s) := by
  have hthinned := hR.thinned h.alike
  have hstanding' : Standing g'.stack g'.tree := by
    rw [h.stack]
    exact hstanding.thinned hthinned
  obtain ⟨c, hc, htext⟩ := hstanding.top_holds
  have hfits := Tree.fits_create hstanding.linked (show Content.text s ≠ .document by simp) hc htext
  have hinner : g'.innermost = top g.stack := by rw [innermost_eq_top, h.stack]
  rw [takeText_eq hstanding, takeText_eq hstanding', innermost_eq_top, hinner, hthinned.size]
  have hgrown : Together R
      { g with tree := (g.tree.create (.text s)).2.attach (top g.stack) ⟨g.tree.size⟩ }
      { g' with tree := (g'.tree.create (.text s)).2.attach (top g.stack) ⟨g.tree.size⟩ } :=
    ⟨h.stack, h.issues, hR.text s h.alike hstanding⟩
  refine hgrown.notify hR ((hstanding.linked.create _).attach hfits) ?_ .textCreated
  rw [Tree.size_attach]
  exact hfits.child_lt_size

/-- An element that has found its place starts. -/
theorem Together.start (hR : Lockstep o R) (h : Together R g g') (hl : g.tree.Linked) {id : NodeId}
    (hid : id.index < g.tree.size) (tag : String) :
    let started := Growth.notify unwatched.recorded .elementStarted id g
    let started' := Growth.notify o .elementStarted id g'
    Together R
      (if isVoid tag then Growth.notify unwatched.recorded .elementEnded id started
        else { started with stack := ⟨id, true⟩ :: started.stack })
      (if isVoid tag then Growth.notify o .elementEnded id started'
        else { started' with stack := ⟨id, true⟩ :: started'.stack }) := by
  have hstarted := h.notify hR hl hid .elementStarted
  by_cases hvoid : isVoid tag = true
  · simp only [if_pos hvoid]
    exact hstarted.notify hR hl hid .elementEnded
  · simp only [if_neg hvoid]
    exact ⟨congrArg (⟨id, true⟩ :: ·) hstarted.stack, hstarted.issues, hstarted.alike⟩

theorem Together.takeStart (hR : Lockstep o R) (h : Together R g g')
    (hstanding : Standing g.stack g.tree) (hlate : ¬ g.Late) (index : Nat) (tag : String)
    (attributes : List Attribute) :
    Together R (g.takeStart unwatched.recorded index tag attributes)
      (g'.takeStart o index tag attributes) := by
  have hthinned := hR.thinned h.alike
  have hstanding' : Standing g'.stack g'.tree := by
    rw [h.stack]
    exact hstanding.thinned hthinned
  -- A root that is there when watched is there when nobody watches.
  have hlate' : ¬ g'.Late := by
    rintro ⟨hinner, hsome⟩
    rw [innermost_eq_top, h.stack] at hinner
    exact hlate ⟨hinner, hthinned.documentElement?_isSome hsome⟩
  generalize he : Element.ofSource tag attributes = e
  have hstack := (thinned_sprout hthinned h.stack hstanding e).2
  have hsprout : Together R (g.sprout e) (g'.sprout e) := by
    rw [sprout_eq, sprout_eq] at hstack ⊢
    exact ⟨hstack, h.issues, hR.element e h.alike h.stack hstanding⟩
  obtain ⟨ws, -, -, hextended, -⟩ := exists_extended hstanding e
  have hl : (g.sprout e).tree.Linked := by
    rw [sprout_eq]
    exact hextended.grown.linked
  have hx : (⟨g.tree.size⟩ : NodeId).index < (g.sprout e).tree.size := by
    rw [sprout_eq]
    exact (hextended.fresh ⟨⟨g.tree.size⟩, true⟩ List.mem_cons_self).2
  rw [takeStart_eq hstanding hlate, takeStart_eq hstanding' hlate', he, hthinned.size]
  exact hsprout.start hR hl hx tag

/-- The same is opened between where all stands in the same place. -/
theorem Together.openBetween (hshape : KeepsShape R) (h : Together R g g') (id : NodeId) :
    Together R (g.openBetween id) (g'.openBetween id) where
  stack := by
    have hancestors := Tree.ancestors_of_stripped (hshape _ _ _ _ h.alike) id
    simp only [Growth.openBetween, hancestors, innermost_eq_top, h.stack]
    rfl
  issues := h.issues
  alike := h.alike

/-- Where nothing is taken out, late elements are moved to the same place. -/
theorem Together.hosted (hR : Lockstep o R) (hshape : KeepsShape R) (h : Together R g g')
    (hstanding : Standing g.stack g.tree) (index : Nat) (tag : String) (e : Element) :
    Together R (g.hosted index tag e) (g'.hosted index tag e) := by
  obtain ⟨hlate, hhosts⟩ := hosts_congr (hshape _ _ _ _ h.alike) h.stack
  refine ⟨?_, by simp only [Growth.hosted, hlate, h.issues], ?_⟩
  · rw [stack_hosted, stack_hosted, h.stack]
  · rw [tree_hosted, tree_hosted, memory_hosted, memory_hosted]
    exact hR.element e h.alike hhosts hstanding.hosts

theorem Together.takeStart_of_keepsShape (hR : Lockstep o R) (hshape : KeepsShape R)
    (h : Together R g g') (hstanding : Standing g.stack g.tree) (index : Nat) (tag : String)
    (attributes : List Attribute) :
    Together R (g.takeStart unwatched.recorded index tag attributes)
      (g'.takeStart o index tag attributes) := by
  have hthinned := hR.thinned h.alike
  have hstanding' : Standing g'.stack g'.tree := by
    rw [h.stack]
    exact hstanding.thinned hthinned
  generalize he : Element.ofSource tag attributes = e
  have hopened := (h.hosted hR hshape hstanding index tag e).openBetween hshape ⟨g.tree.size⟩
  obtain ⟨ws, -, -, hextended, -⟩ :=
    exists_extended (g := { g with stack := g.hosts }) hstanding.hosts e
  rw [takeStart_eq_hosted hstanding, takeStart_eq_hosted hstanding', he, hthinned.size]
  exact hopened.start hR hextended.grown.linked
    (hextended.fresh ⟨⟨g.tree.size⟩, true⟩ List.mem_cons_self).2 tag

/-! ### Ends -/

theorem Together.announceEnd (hR : Lockstep o R) (h : Together R g g') (hl : g.tree.Linked)
    {e : OpenElement} (he : e.id.index < g.tree.size) :
    Together R (announceEnd unwatched.recorded g e) (announceEnd o g' e) := by
  simp only [Growth.announceEnd]
  split
  · exact h.notify hR hl he .elementEnded
  · exact h

theorem Together.closeImplicitly (hR : Lockstep o R) (index : Nat) (h : Together R g g')
    (hl : g.tree.Linked) {e : OpenElement} (he : e.id.index < g.tree.size) :
    Together R (closeImplicitly unwatched.recorded index g e) (closeImplicitly o index g' e) := by
  simp only [Growth.closeImplicitly, (hR.thinned h.alike).tag?_eq]
  split
  · exact (h.report index _).notify hR hl he .elementEnded
  · exact h

theorem tree_announceEnd (g : Growth (Unit × List Notice)) (e : OpenElement) :
    (Growth.announceEnd unwatched.recorded g e).tree = g.tree := by
  simp only [Growth.announceEnd]
  split <;> rfl

theorem tree_closeImplicitly (index : Nat) (g : Growth (Unit × List Notice)) (e : OpenElement) :
    (Growth.closeImplicitly unwatched.recorded index g e).tree = g.tree := by
  obtain ⟨issues, heq⟩ := closeImplicitly_eq_announceEnd unwatched.recorded index g e
  rw [heq, tree_announceEnd]

/-- Known elements end one after the other. -/
theorem Together.foldl (f : Growth (Unit × List Notice) → OpenElement → Growth (Unit × List Notice))
    (f' : Growth ω → OpenElement → Growth ω)
    (hf : ∀ {g g' e}, Together R g g' → g.tree.Linked → e.id.index < g.tree.size →
      Together R (f g e) (f' g' e))
    (htree : ∀ g e, (f g e).tree = g.tree) (h : Together R g g') (hl : g.tree.Linked)
    {closed : List OpenElement} (hclosed : ∀ e ∈ closed, e.id.index < g.tree.size) :
    Together R (closed.foldl f g) (closed.foldl f' g') ∧ (closed.foldl f g).tree = g.tree := by
  induction closed generalizing g g' with
  | nil => exact ⟨h, rfl⟩
  | cons e closed ih =>
    rw [← htree g e] at hl hclosed
    have hnext := hf h (htree g e ▸ hl) (htree g e ▸ hclosed e List.mem_cons_self)
    obtain ⟨htogether, hsame⟩ := ih hnext hl fun e he => hclosed e (.tail _ he)
    exact ⟨htogether, hsame.trans (htree g e)⟩

theorem Standing.known {os : List OpenElement} {t : Tree} (h : Standing os t) :
    ∀ e ∈ os, e.id.index < t.size := by
  intro e he
  obtain ⟨c, hc, -⟩ := h.holds e he
  exact Tree.lt_size_of_content? hc

theorem Together.takeEnd (hR : Lockstep o R) (h : Together R g g')
    (hstanding : Standing g.stack g.tree) (index : Nat) (tag : String) :
    Together R (g.takeEnd unwatched.recorded index tag) (g'.takeEnd o index tag) := by
  have hl := hstanding.linked
  -- The stacks are the same and so are the tags, so the same elements are closed.
  simp only [Growth.takeEnd, h.stack, (hR.thinned h.alike).tag?_eq]
  split
  · exact h
  · split
    · exact h.report index _
    · next closed rest hdrop =>
      have hsplit : g.stack.takeWhile (fun e => g.tree.tag? e.id ≠ some tag) ++ closed :: rest =
          g.stack := by
        rw [← hdrop]
        exact List.takeWhile_append_dropWhile
      have hknown := hstanding.known
      rw [← hsplit] at hknown
      have hopen : Together R { g with stack := rest } { g' with stack := rest } :=
        ⟨rfl, h.issues, h.alike⟩
      obtain ⟨htogether, hsame⟩ := hopen.foldl
        (Growth.closeImplicitly unwatched.recorded index) (Growth.closeImplicitly o index)
        (fun h hl he => h.closeImplicitly hR index hl he) (tree_closeImplicitly index) hl
        fun e he => hknown e (List.mem_append_left _ he)
      refine htogether.announceEnd hR ?_ ?_
      · rw [hsame]
        exact hl
      · rw [hsame]
        exact hknown closed (by simp)

/-! ### Whole documents -/

theorem Together.take (hR : Lockstep o R) (h : Together R g g') (hstanding : Standing g.stack g.tree)
    (token : Nat × Token)
    (hmoves : Unmoved (take unwatched.recorded g token).issues ∨ KeepsShape R) :
    Together R (Growth.take unwatched.recorded g token) (Growth.take o g' token) := by
  obtain ⟨index, token⟩ := token
  cases token with
  | text s => exact h.takeText hR hstanding index s
  | startTag tag attributes =>
    rcases hmoves with hunmoved | hshape
    · exact h.takeStart hR hstanding (not_late hstanding hunmoved) index tag attributes
    · exact h.takeStart_of_keepsShape hR hshape hstanding index tag attributes
  | endTag tag => exact h.takeEnd hR hstanding index tag

theorem Together.takeAll (hR : Lockstep o R) (h : Together R g g') (hsound : Sound tokens g.stack g)
    (later : List (Nat × Token))
    (hmoves : Unmoved (later.foldl (Growth.take unwatched.recorded) g).issues ∨ KeepsShape R) :
    Together R (later.foldl (Growth.take unwatched.recorded) g) (later.foldl (Growth.take o) g') := by
  induction later generalizing tokens g g' with
  | nil => exact h
  | cons token later ih =>
    have hnext := hmoves.imp_left fun h => h.of_prefix (issues_takeAll later _)
    exact ih (h.take hR hsound.standing token hnext) (hsound.take lawful_unwatched token) hmoves

/-- All that is open ends, in both. -/
theorem Together.finish (hR : Lockstep o R) (h : Together R g g') (hsound : Sound tokens g.stack g)
    (index : Nat) :
    ∃ closed closed', Together R closed closed' ∧ Standing [] closed.tree ∧
      g.finish unwatched.recorded index = { closed with tree := closed.tree.rooted } ∧
      g'.finish o index = { closed' with tree := closed'.tree.rooted } := by
  have hl := hsound.standing.linked
  have hopen : Together R { g with stack := [] } { g' with stack := [] } := ⟨rfl, h.issues, h.alike⟩
  obtain ⟨hclosed, hsame⟩ := hopen.foldl (Growth.announceEnd unwatched.recorded)
    (Growth.announceEnd o) (fun h hl he => h.announceEnd hR hl he) tree_announceEnd hl
    hsound.standing.known
  have hstanding : Standing [] (g.stack.foldl (Growth.announceEnd unwatched.recorded)
      { g with stack := [] }).tree := by
    rw [hsame]
    exact ⟨hl, hsound.standing.root, by simp⟩
  have hstanding' := hstanding.thinned (hR.thinned hclosed.alike)
  refine ⟨_, _, hclosed, hstanding, finish_eq_rooted index g hstanding, ?_⟩
  rw [← h.stack] at hstanding' ⊢
  exact finish_eq_rooted index g' hstanding'

end Together

/-- **A document read in lockstep.** Where nothing is moved, or nothing taken out, what is in common at
the start is in common when all has ended, and then both trees are given a root where they have
none. -/
theorem Lockstep.parse_of_moves {o : Observer ω} {R : Tree → List Notice → Tree → ω → Prop}
    (hR : Lockstep o R) {memory : ω} (hstart : R .empty [] .empty memory) {p p' : Parser}
    {input : String} {t : Tree} {log : List Notice}
    (hparse : p.parseWith unwatched.recorded ((), []) input = (.ok t, ((), log), p'))
    (hmoves : Unmoved p'.issues ∨ KeepsShape R) :
    ∃ u u' m, Standing [] u ∧ R u log u' m ∧ t = u.rooted ∧
      p.parseWith o memory input = (.ok u'.rooted, m, p') := by
  obtain ⟨hfailure, htree, hmemory, hparser⟩ := parseWith_eq_ok hparse
  have hsound := Sound.takeAll (g := { memory := ((), []) }) lawful_unwatched
    (sound_start ()) (read input.toList).tokens
  have hempty : Together R { memory := ((), []) } { memory } := ⟨rfl, rfl, hstart⟩
  have htogether := hempty.takeAll hR (sound_start ()) (read input.toList).tokens
  have hread : readFrom p.reset.position 0 input.toList = read input.toList := rfl
  simp only [Parser.parseWith, hread, hfailure]
  generalize (read input.toList).tokens.foldl (take unwatched.recorded) { memory := ((), []) } = g
    at *
  generalize (read input.toList).tokens.foldl (take o) { memory } = g' at *
  rw [hparser] at hmoves
  obtain ⟨closed, closed', hclosed, hstanding, hfinish, hfinish'⟩ :=
    (htogether (hmoves.imp_left fun h => h.of_prefix (issues_finish _ g))).finish hR hsound input.length
  rw [hfinish] at htree hmemory hparser
  rw [hfinish', hparser]
  have hlog : closed.memory.2 = log := congrArg Prod.snd hmemory
  exact ⟨closed.tree, closed'.tree, closed'.memory, hstanding, hlog ▸ hclosed.alike, htree.symm,
    by rw [hclosed.issues]⟩

theorem Lockstep.parse {o : Observer ω} {R : Tree → List Notice → Tree → ω → Prop}
    (hR : Lockstep o R) {memory : ω} (hstart : R .empty [] .empty memory) {p p' : Parser}
    {input : String} {t : Tree} {log : List Notice}
    (hparse : p.parseWith unwatched.recorded ((), []) input = (.ok t, ((), log), p'))
    (hunmoved : Unmoved p'.issues) :
    ∃ u u' m, Standing [] u ∧ R u log u' m ∧ t = u.rooted ∧
      p.parseWith o memory input = (.ok u'.rooted, m, p') :=
  hR.parse_of_moves hstart hparse (.inl hunmoved)

end Growth

end Markup

end Hypertext
