/-
The elements of a document as its start tags brought them. One token brings one
node and the wrappers made for it (`Tree.Brings`), so of all elements those that
started are numbered in the order of their tags, contain what the tags said, and
never come to stand above an earlier one; the others are wrappers
(`enrolled_of_parse`).

Unlike the tour of a document's events this is so for every document, also where
elements are moved into the root.
-/
import Hypertext.Proofs.Markup.Tour
import Hypertext.Proofs.Tree.Stripped

namespace Hypertext

/-- An element such as is made where the source has no tag for it. -/
def Element.Wrapping (e : Element) : Prop :=
  (e.tag = "HTML" ∨ e.tag = "BODY") ∧ e.attributes = {}

theorem Element.wrapping_ofTag {tag : String} (h : tag = "HTML" ∨ tag = "BODY") :
    (Element.ofTag tag).Wrapping := by
  have hhtml : Element.ofTag "HTML" = ⟨"HTML", {}⟩ := by decide +kernel
  have hbody : Element.ofTag "BODY" = ⟨"BODY", {}⟩ := by decide +kernel
  rcases h with rfl | rfl
  · rw [hhtml]
    exact ⟨.inl rfl, rfl⟩
  · rw [hbody]
    exact ⟨.inr rfl, rfl⟩

namespace Tree

/-- The tree `t'` is `t` with a new node, and after that the wrappers made for it. -/
structure Brings (t : Tree) (content : Content) (t' : Tree) : Prop where
  begins : t.Begins t'
  known : t.size < t'.size
  new : t'.content? ⟨t.size⟩ = some content
  wrappers : ∀ id c, t.size < id.index → t'.content? id = some c → ∃ e, c = .element e ∧ e.Wrapping

variable {t t' : Tree} {content : Content}

theorem brings_create (t : Tree) (content : Content) : t.Brings content (t.create content).2 where
  begins := begins_create t content
  known := by
    rw [size_create]
    exact Nat.lt_succ_self _
  new := by rw [content?_create, if_pos rfl]
  wrappers id c hid hc := by
    have hlt := lt_size_of_content? hc
    rw [size_create] at hlt
    omega

theorem Brings.attach (h : t.Brings content t') (p : NodeId) :
    t.Brings content (t'.attach p ⟨t.size⟩) where
  begins := h.begins.attach p (Nat.le_refl _) h.known
  known := by rw [size_attach]; exact h.known
  new := by rw [content?_attach, h.new]
  wrappers id c hid hc := h.wrappers id c hid (by rwa [content?_attach] at hc)

theorem content?_wrapper (t : Tree) (p : NodeId) (tag : String) (id : NodeId) :
    (t.wrapper p tag).2.content? id =
      if id = ⟨t.size⟩ then some (.element (.ofTag tag)) else t.content? id := by
  rw [wrapper_eq, content?_attach, content?_create]

theorem Brings.wrapper (h : t.Brings content t') (p : NodeId) {tag : String}
    (htag : tag = "HTML" ∨ tag = "BODY") : t.Brings content (t'.wrapper p tag).2 where
  begins := h.begins.trans (begins_wrapper t' p tag)
  known := Nat.lt_of_lt_of_le h.known (begins_wrapper t' p tag).size_le
  new := ((begins_wrapper t' p tag).content _ h.known).trans h.new
  wrappers id c hid hc := by
    rw [content?_wrapper] at hc
    split at hc
    · exact ⟨_, (Option.some.inj hc).symm, Element.wrapping_ofTag htag⟩
    · exact h.wrappers id c hid hc

/-- Two trees in which the same nodes have the same names are brought the same. -/
theorem Brings.content_eq {u u' : Tree} (h : t.Brings content t') (h' : u.Brings content u')
    (hsize : u.size = t.size) (hshape : u'.stripped = t'.stripped) {id : NodeId}
    (hid : t.size ≤ id.index) : u'.content? id = t'.content? id := by
  rcases Nat.eq_or_lt_of_le hid with hid | hid
  · have hnew : id = ⟨t.size⟩ := congrArg NodeId.mk hid.symm
    rw [hnew, h.new, ← hsize, h'.new]
  · have hstripped : (u'.content? id).map Content.stripped = (t'.content? id).map Content.stripped := by
      rw [← content?_stripped, hshape, content?_stripped]
    cases hc : t'.content? id with
    | none => simpa [hc] using hstripped
    | some c =>
      rw [hc, Option.map_some, Option.map_eq_some_iff] at hstripped
      obtain ⟨c', hc', hsame⟩ := hstripped
      obtain ⟨⟨tag, as⟩, rfl, -, rfl⟩ := h.wrappers id c hid hc
      obtain ⟨⟨tag', as'⟩, rfl, -, rfl⟩ := h'.wrappers id c' (hsize ▸ hid) hc'
      cases hsame
      exact hc'

end Tree

namespace Markup

open Growth

theorem Growth.brings_sprouted {ω : Type} (g : Growth ω) (e : Element) :
    g.tree.Brings (.element e) (g.sprouted e) :=
  (Tree.shelter_induction (P := fun _ t' => g.tree.Brings (.element e) t')
    (fun p _ _ htag h => h.wrapper p htag) e.tag (Tree.brings_create g.tree _)).attach _

/-- Of the elements of the tree those that have started contain what was told of them, and are numbered
in the order of their starts, none above an earlier one; the others are wrappers. -/
structure Enrolled (t : Tree) (log : List Notice) : Prop where
  content : ∀ n ∈ log, n.event.kind = .elementStarted →
    ∃ e, n.content = some (.element e) ∧ t.content? n.event.node = some (.element e)
  ordered : (nodesOf .elementStarted log).Pairwise (·.index < ·.index)
  apart : (nodesOf .elementStarted log).Pairwise fun x y => ¬ t.Covers y x
  wrappers : ∀ id e, t.content? id = some (.element e) → id ∉ nodesOf .elementStarted log → e.Wrapping

section Enrolled

variable {t t' : Tree} {log : List Notice} {n : Notice} {e : Element} {id : NodeId}

theorem Enrolled.exists_element (h : Enrolled t log) (hid : id ∈ nodesOf .elementStarted log) :
    ∃ e, t.content? id = some (.element e) := by
  simp only [nodesOf, List.mem_map, List.mem_filter, decide_eq_true_eq] at hid
  obtain ⟨n, ⟨hn, hkind⟩, rfl⟩ := hid
  obtain ⟨e, -, he⟩ := h.content n hn hkind
  exact ⟨e, he⟩

theorem Enrolled.known (h : Enrolled t log) (hid : id ∈ nodesOf .elementStarted log) :
    id.index < t.size := by
  obtain ⟨e, he⟩ := h.exists_element hid
  exact Tree.lt_size_of_content? he

theorem enrolled_empty : Enrolled .empty [] where
  content := by simp
  ordered := .nil
  apart := .nil
  wrappers id e he := by cases Tree.content?_empty he

/-- What is told of other things than starts changes nothing. -/
theorem Enrolled.concat (h : Enrolled t log) (hn : n.event.kind ≠ .elementStarted) :
    Enrolled t (log ++ [n]) := by
  have hsame : nodesOf .elementStarted (log ++ [n]) = nodesOf .elementStarted log :=
    nodesOf_concat_of_ne hn
  refine ⟨fun n' hn' hkind => ?_, hsame ▸ h.ordered, hsame ▸ h.apart, hsame ▸ h.wrappers⟩
  rcases List.mem_append.mp hn' with hn' | hn'
  · exact h.content n' hn' hkind
  · rw [List.mem_singleton.mp hn'] at hkind
    exact absurd hkind hn

section Begun

variable (h : Enrolled t log) (hl : t.Linked) (hl' : t'.Linked) (hbegins : t.Begins t')
include h hbegins

theorem Enrolled.content_of_begins (hn : n ∈ log) (hkind : n.event.kind = .elementStarted) :
    ∃ e, n.content = some (.element e) ∧ t'.content? n.event.node = some (.element e) := by
  obtain ⟨e, hcontent, he⟩ := h.content n hn hkind
  exact ⟨e, hcontent, (hbegins.content _ (Tree.lt_size_of_content? he)).trans he⟩

include hl hl'

/-- What stands above an element that has started stays the same. -/
theorem Enrolled.apart_of_begins :
    (nodesOf .elementStarted log).Pairwise fun x y => ¬ t'.Covers y x := by
  refine h.apart.imp_of_mem fun hx _ hapart => ?_
  rwa [hbegins.covers_iff hl hl' (h.known hx)]

/-- The tree grows by wrappers and by nodes that are no elements. -/
theorem Enrolled.grow
    (hnew : ∀ id e, t.size ≤ id.index → t'.content? id = some (.element e) → e.Wrapping) :
    Enrolled t' log where
  content _ hn hkind := h.content_of_begins hbegins hn hkind
  ordered := h.ordered
  apart := h.apart_of_begins hl hl' hbegins
  wrappers id e he hsilent := by
    by_cases hid : id.index < t.size
    · rw [hbegins.content id hid] at he
      exact h.wrappers id e he hsilent
    · exact hnew id e (Nat.le_of_not_lt hid) he

end Begun

/-- The tree grows by an element that starts, and its wrappers. -/
theorem Enrolled.start (h : Enrolled t log) (hl : t.Linked) (hl' : t'.Linked)
    (hbrings : t.Brings (.element e) t') :
    Enrolled t' (log ++ [⟨⟨.elementStarted, ⟨t.size⟩⟩, some (.element e)⟩]) := by
  have hbegins := hbrings.begins
  have hstarted : nodesOf .elementStarted
      (log ++ [⟨⟨.elementStarted, ⟨t.size⟩⟩, some (.element e)⟩]) =
        nodesOf .elementStarted log ++ [⟨t.size⟩] := nodesOf_append
  refine ⟨fun n hn hkind => ?_, ?_, ?_, fun id e' he' hsilent => ?_⟩
  · rcases List.mem_append.mp hn with hn | hn
    · exact h.content_of_begins hbegins hn hkind
    · rw [List.mem_singleton.mp hn]
      exact ⟨e, rfl, hbrings.new⟩
  · rw [hstarted, List.pairwise_append]
    refine ⟨h.ordered, List.pairwise_singleton _ _, fun x hx y hy => ?_⟩
    rw [List.mem_singleton.mp hy]
    exact h.known hx
  · rw [hstarted, List.pairwise_append]
    refine ⟨h.apart_of_begins hl hl' hbegins, List.pairwise_singleton _ _, fun x hx y hy => ?_⟩
    -- all that stands above an earlier element was there before
    rw [hbegins.covers_iff hl hl' (h.known hx), List.mem_singleton.mp hy]
    rintro (heq | habove)
    · have hlt := h.known hx
      rw [← heq] at hlt
      exact Nat.lt_irrefl _ hlt
    · exact Nat.lt_irrefl _ (hl.above_lt_size habove)
  · rw [hstarted, List.mem_append, List.mem_singleton, not_or] at hsilent
    by_cases hid : id.index < t.size
    · rw [hbegins.content id hid] at he'
      exact h.wrappers id e' he' hsilent.1
    · have hlt : t.size < id.index := by
        refine Nat.lt_of_le_of_ne (Nat.le_of_not_lt hid) fun heq => hsilent.2 ?_
        rw [heq]
      obtain ⟨e'', heq, hwrapping⟩ := hbrings.wrappers id _ hlt he'
      cases heq
      exact hwrapping

end Enrolled

/-! ## While a document grows -/

section Steps

variable {g : Growth (Unit × List Notice)} {tokens : List Token} {o : OpenElement}

theorem Enrolled.takeText (h : Enrolled g.tree g.memory.2) (hsound : Sound tokens g.stack g)
    (index : Nat) (s : String) :
    let g' := g.takeText unwatched.recorded index s
    Enrolled g'.tree g'.memory.2 := by
  obtain ⟨c, hc, htext⟩ := hsound.standing.top_holds
  have hl := hsound.standing.linked
  have hbrings := (Tree.brings_create g.tree (.text s)).attach g.innermost
  have hl' := (hl.grown_attach (.text s) (by simp) hc htext).1.linked
  rw [takeText_eq hsound.standing]
  refine (h.grow hl hl' hbrings.begins fun id e hid he => ?_).concat (by simp)
  rcases Nat.eq_or_lt_of_le hid with hid | hid
  · obtain rfl : id = ⟨g.tree.size⟩ := congrArg NodeId.mk hid.symm
    cases hbrings.new.symm.trans he
  · obtain ⟨e', heq, hwrapping⟩ := hbrings.wrappers id _ hid he
    cases heq
    exact hwrapping

theorem Enrolled.takeStart (h : Enrolled g.tree g.memory.2) (hsound : Sound tokens g.stack g)
    (index : Nat) (tag : String) (attributes : List Attribute) :
    let g' := g.takeStart unwatched.recorded index tag attributes
    Enrolled g'.tree g'.memory.2 := by
  have hhosts := hsound.standing.hosts
  obtain ⟨ws, -, -, hextended, -⟩ :=
    exists_extended (g := { g with stack := g.hosts }) hhosts (.ofSource tag attributes)
  have hbrings := brings_sprouted { g with stack := g.hosts } (.ofSource tag attributes)
  have hstarted := h.start hhosts.linked hextended.grown.linked hbrings
  rw [takeStart_eq_hosted hsound.standing]
  have hlog := log_notify unwatched .elementStarted
    (g := openBetween ⟨g.tree.size⟩ (g.hosted index tag (.ofSource tag attributes))) hbrings.new
  have hmemory : (openBetween ⟨g.tree.size⟩
      (g.hosted index tag (.ofSource tag attributes))).memory.2 = g.memory.2 := rfl
  rw [hmemory] at hlog
  rw [← hlog] at hstarted
  by_cases hvoid : isVoid tag = true
  · simp only [if_pos hvoid]
    exact hstarted.concat (by simp)
  · simp only [if_neg hvoid]
    exact hstarted

theorem Enrolled.announceEnd (h : Enrolled g.tree g.memory.2) (o : OpenElement) :
    let g' := announceEnd unwatched.recorded g o
    Enrolled g'.tree g'.memory.2 := by
  simp only [Growth.announceEnd]
  split
  · exact h.concat (by simp)
  · exact h

theorem Enrolled.closeImplicitly (h : Enrolled g.tree g.memory.2) (index : Nat) (o : OpenElement) :
    let g' := closeImplicitly unwatched.recorded index g o
    Enrolled g'.tree g'.memory.2 := by
  obtain ⟨issues, heq⟩ := closeImplicitly_eq_announceEnd unwatched.recorded index g o
  rw [heq]
  exact Enrolled.announceEnd (g := { g with issues }) h o

theorem Enrolled.takeEnd (h : Enrolled g.tree g.memory.2) (index : Nat) (tag : String) :
    let g' := g.takeEnd unwatched.recorded index tag
    Enrolled g'.tree g'.memory.2 := by
  simp only [Growth.takeEnd]
  split
  · exact h
  · split
    · exact h
    · refine Enrolled.announceEnd ?_ _
      refine List.foldlRecOn
        (motive := fun g : Growth (Unit × List Notice) => Enrolled g.tree g.memory.2) _ _ h ?_
      exact fun g hg o _ => hg.closeImplicitly index o

theorem Enrolled.take (h : Enrolled g.tree g.memory.2) (hsound : Sound tokens g.stack g)
    (token : Nat × Token) :
    let g' := Growth.take unwatched.recorded g token
    Enrolled g'.tree g'.memory.2 := by
  obtain ⟨index, token⟩ := token
  cases token with
  | text s => exact h.takeText hsound index s
  | startTag tag attributes => exact h.takeStart hsound index tag attributes
  | endTag tag => exact h.takeEnd index tag

theorem Enrolled.takeAll (h : Enrolled g.tree g.memory.2) (hsound : Sound tokens g.stack g)
    (later : List (Nat × Token)) :
    let g' := later.foldl (Growth.take unwatched.recorded) g
    Enrolled g'.tree g'.memory.2 := by
  induction later generalizing tokens g with
  | nil => exact h
  | cons token later ih => exact ih (h.take hsound token) (hsound.take lawful_unwatched token)

theorem Enrolled.rooted {t : Tree} {log : List Notice} (h : Enrolled t log)
    (hstanding : Standing [] t) : Enrolled t.rooted log := by
  refine h.grow hstanding.linked hstanding.rooted.linked (begins_rooted t) fun id e hid he => ?_
  have hnone : t.content? id ≠ some (.element e) := fun he =>
    Nat.not_lt.mpr hid (Tree.lt_size_of_content? he)
  rw [Tree.rooted] at he
  split at he
  · exact absurd he hnone
  · rw [Tree.content?_wrapper] at he
    split at he
    · cases he
      exact Element.wrapping_ofTag (.inl rfl)
    · exact absurd he hnone

end Steps

/-- **Start tags and elements.** The elements of a document that start tags stand for contain what
was told of them, are numbered in the order of the tags, and come under earlier ones only; all others
are wrappers. -/
theorem enrolled_of_parse {p p' : Parser} {input : String} {t : Tree}
    (hparse : p.parse input = (.ok t, p')) : Enrolled t (sourceLog input) := by
  obtain ⟨-, htree, hmemory, -⟩ := parseWith_eq_ok (recorded_of_parse hparse)
  have hsound := Sound.takeAll (g := { memory := ((), []) }) lawful_unwatched (sound_start ())
    (read input.toList).tokens
  have henrolled := Enrolled.takeAll (g := { memory := ((), []) }) enrolled_empty (sound_start ())
    (read input.toList).tokens
  generalize (read input.toList).tokens.foldl (take unwatched.recorded) { memory := ((), []) } = g
    at *
  rw [← List.append_nil g.stack] at hsound
  obtain ⟨hclosed, -⟩ := Sound.foldl (g := { g with stack := [] })
    (Sound.announceEnd lawful_unwatched) stack_announceEnd ⟨hsound.standing, hsound.told⟩
  have hended := List.foldlRecOn
    (motive := fun g : Growth (Unit × List Notice) => Enrolled g.tree g.memory.2) g.stack
    (announceEnd unwatched.recorded) (b := { g with stack := [] }) henrolled
    fun g hg o _ => hg.announceEnd o
  rw [finish_eq_rooted _ _ hclosed.standing] at htree hmemory
  have hrooted := hended.rooted hclosed.standing
  dsimp only at htree hmemory
  rwa [htree, hmemory] at hrooted

end Markup

end Hypertext
