/-
The events of a document, whoever watches and whatever they do to the tree.
Observers see each text and each start tag once, in the order of the source,
and starts and ends are nested.

What carries this is the stack (`Sound`). It is kept apart from the tree, so
observers cannot disturb it; and what they do to the tree leaves every open
element one that holds children, so nothing that is put under the innermost
one is ever refused.
-/
import Hypertext.Proofs.Markup.Nesting
import Hypertext.Proofs.Markup.Steps

namespace Hypertext

/-- The element of a start tag. -/
abbrev Element.ofSource (tag : String) (attributes : List Attribute) : Element :=
  { Element.ofTag tag with attributes := .ofList attributes }

namespace Markup

/-- The event a token brings and what its node then contains. End tags bring no node. -/
def Token.arrival? : Token → Option (EventKind × Option Content)
  | .text s => some (.textCreated, some (.text s))
  | .startTag tag attributes =>
    some (.elementStarted, some (.element (.ofSource tag attributes)))
  | .endTag _ => none

def Notice.arrival? (n : Notice) : Option (EventKind × Option Content) :=
  if n.event.kind = .elementEnded then none else some (n.event.kind, n.content)

namespace Growth

/-! ## Invariants -/

/-- The open elements that observers know of. -/
def announced (os : List OpenElement) : List NodeId :=
  (os.filter (·.announced)).map (·.id)

/-- The tree can be grown under each of the elements. -/
structure Standing (os : List OpenElement) (t : Tree) : Prop where
  linked : t.Linked
  root : t.content? Tree.root = some .document
  holds : ∀ o ∈ os, ∃ c, t.content? o.id = some c ∧ ∀ s, c ≠ .text s

/-- The log is what was to be told of the tokens, with the elements `os` open. -/
structure Told (tokens : List Token) (os : List OpenElement) (size : Nat) (log : List Notice) :
    Prop where
  opened : Opened (announced os) log
  arrivals : log.filterMap Notice.arrival? = tokens.filterMap Token.arrival?
  known : ∀ n ∈ log, n.event.node.index < size
  fresh : (nodesOf .elementStarted log).Nodup

/-- What holds of a growth after some tokens. The open elements are the stack, or, while an end is
announced, the stack with those still to be told of on top. -/
structure Sound {ω : Type} (tokens : List Token) (os : List OpenElement)
    (g : Growth (ω × List Notice)) : Prop where
  standing : Standing os g.tree
  told : Told tokens os g.tree.size g.memory.2

section Logs

variable {tokens : List Token} {os : List OpenElement} {size size' : Nat} {log : List Notice}
  {id : NodeId} {content : Option Content}

theorem announced_append (ws : List OpenElement) :
    announced (ws ++ os) = announced ws ++ announced os := by
  simp [announced]

theorem Told.grow (h : Told tokens os size log) (hsize : size ≤ size') : Told tokens os size' log where
  opened := h.opened
  arrivals := h.arrivals
  known n hn := Nat.lt_of_lt_of_le (h.known n hn) hsize
  fresh := h.fresh

theorem Told.endTag (h : Told tokens os size log) (tag : String) :
    Told (tokens ++ [.endTag tag]) os size log where
  opened := h.opened
  arrivals := by simp [h.arrivals, Token.arrival?]
  known := h.known
  fresh := h.fresh

theorem Told.text (h : Told tokens os size log) (hid : id.index < size) (s : String) :
    Told (tokens ++ [.text s]) os size (log ++ [⟨⟨.textCreated, id⟩, some (.text s)⟩]) where
  opened := h.opened.append (.text rfl .nil)
  arrivals := by simp [h.arrivals, Token.arrival?, Notice.arrival?]
  known := by
    intro n hn
    rcases List.mem_append.mp hn with hn | hn
    · exact h.known n hn
    · rw [List.mem_singleton.mp hn]
      exact hid
  fresh := by
    rw [nodesOf_concat_of_ne (by simp)]
    exact h.fresh

/-- A node that is newer than all that was told of has not been started. -/
theorem Told.fresh_start (h : Told tokens os size log) (hid : size ≤ id.index) :
    (nodesOf .elementStarted log ++ [id]).Nodup := by
  refine List.nodup_append.mpr ⟨h.fresh, by simp, ?_⟩
  intro x hx y hy hxy
  obtain ⟨n, hn, hnode⟩ := mem_of_mem_nodesOf hx
  have hlt := h.known n hn
  rw [hnode, hxy, List.mem_singleton.mp hy] at hlt
  omega

theorem Told.start (h : Told tokens os size log) (hid : size ≤ id.index) (hsize : id.index < size')
    {tag : String} (hvoid : isVoid tag = false) (attributes : List Attribute) :
    Told (tokens ++ [.startTag tag attributes]) (⟨id, true⟩ :: os) size'
      (log ++ [⟨⟨.elementStarted, id⟩,
        some (.element (.ofSource tag attributes))⟩]) where
  opened := by
    refine Opened.start h.opened rfl ?_
    intro h
    obtain ⟨e, he, hv⟩ := h
    cases he
    change isVoid tag.toUpper = true at hv
    simp [hvoid] at hv
  arrivals := by simp [h.arrivals, Token.arrival?, Notice.arrival?]
  known := by
    intro n hn
    rcases List.mem_append.mp hn with hn | hn
    · have := h.known n hn
      omega
    · rw [List.mem_singleton.mp hn]
      exact hsize
  fresh := by
    rw [nodesOf_append]
    exact h.fresh_start hid

theorem Told.void (h : Told tokens os size log) (hid : size ≤ id.index) (hsize : id.index < size')
    (tag : String) (attributes : List Attribute) :
    Told (tokens ++ [.startTag tag attributes]) os size'
      (log ++ [⟨⟨.elementStarted, id⟩,
        some (.element (.ofSource tag attributes))⟩] ++
        [⟨⟨.elementEnded, id⟩, content⟩]) where
  opened := by
    rw [List.append_assoc]
    exact h.opened.append (.pair rfl rfl)
  arrivals := by simp [h.arrivals, Token.arrival?, Notice.arrival?]
  known := by
    intro n hn
    simp only [List.mem_append, List.mem_singleton] at hn
    rcases hn with (hn | rfl) | rfl
    · have := h.known n hn
      omega
    · exact hsize
    · exact hsize
  fresh := by
    rw [nodesOf_concat_of_ne (by simp), nodesOf_append]
    exact h.fresh_start hid

theorem Told.stop (h : Told tokens (⟨id, true⟩ :: os) size log) (hid : id.index < size) :
    Told tokens os size (log ++ [⟨⟨.elementEnded, id⟩, content⟩]) where
  opened := Opened.close h.opened rfl
  arrivals := by simp [h.arrivals, Notice.arrival?]
  known := by
    intro n hn
    rcases List.mem_append.mp hn with hn | hn
    · exact h.known n hn
    · rw [List.mem_singleton.mp hn]
      exact hid
  fresh := by
    rw [nodesOf_concat_of_ne (by simp)]
    exact h.fresh

end Logs

/-! ## The tree under growth -/

section Trees

variable {os : List OpenElement} {t t' : Tree}

theorem Standing.keeps (h : Standing os t) (hl : t'.Linked) (hk : t.Keeps t') : Standing os t' where
  linked := hl
  root := hk.document h.root
  holds o ho := hk.holds (h.holds o ho)

/-- One more element is open. -/
theorem Standing.opened (h : Standing os t) {o : OpenElement}
    (ho : ∃ c, t.content? o.id = some c ∧ ∀ s, c ≠ .text s) : Standing (o :: os) t where
  linked := h.linked
  root := h.root
  holds o' ho' := by
    rcases List.mem_cons.mp ho' with rfl | ho'
    · exact ho
    · exact h.holds o' ho'

theorem Standing.appended (h : Standing os t) {content : Content} {parent : NodeId}
    (happend : (t.create content).2.append parent ⟨t.size⟩ = .ok t') :
    Standing os t' ∧ t.size < t'.size ∧ t'.content? ⟨t.size⟩ = some content := by
  have hl := h.linked.create content
  have hkeeps := hl.keeps_append happend
  have hsize : (⟨t.size⟩ : NodeId).index < (t.create content).2.size := by simp
  refine ⟨h.keeps (hl.append happend) ((Tree.keeps_create t _).trans hkeeps),
    Nat.lt_of_lt_of_le hsize hkeeps.size_le, ?_⟩
  rw [(hl.content?_append happend hsize).1, Tree.content?_create, if_pos rfl]

end Trees

/-! ## Places -/

section Places

variable {ω : Type} {g : Growth ω}

theorem innermost_holds (h : Standing g.stack g.tree) :
    ∃ c, g.tree.content? g.innermost = some c ∧ ∀ s, c ≠ .text s := by
  rw [innermost]
  cases hs : g.stack with
  | nil => exact ⟨.document, h.root, by simp⟩
  | cons o os => exact h.holds o (by simp [hs])

/-- The element that takes what comes after the root. -/
theorem exists_refuge {t : Tree} (h : t.documentElement?.isSome = true) :
    ∃ refuge p e, t.body?.or t.documentElement? = some refuge ∧ refuge ∈ t.children p ∧
      t.element? refuge = some e := by
  obtain ⟨html, hhtml⟩ := Option.isSome_iff_exists.mp h
  cases hbody : t.body? with
  | none =>
    obtain ⟨hmem, helem⟩ := Tree.documentElement?_eq_some hhtml
    obtain ⟨e, he⟩ := Option.isSome_iff_exists.mp helem
    exact ⟨html, _, e, by rw [hhtml, Option.none_or], hmem, he⟩
  | some body =>
    obtain ⟨p, -, hmem, htag⟩ := Tree.section?_eq_some hbody
    obtain ⟨e, he⟩ := Option.isSome_iff_exists.mp (Tree.isElement_of_tag? htag)
    exact ⟨body, p, e, Option.some_or, hmem, he⟩

/-- A new element always finds a place. -/
theorem place_eq (h : Standing g.stack g.tree) (index : Nat) (tag : String) (e : Element) :
    ∃ g', place index ⟨g.tree.size⟩ tag { g with tree := (g.tree.create (.element e)).2 } =
        (g', true) ∧ g'.stack = g.stack ∧ g'.memory = g.memory ∧ Standing g.stack g'.tree ∧
      g.tree.size < g'.tree.size ∧ g'.tree.content? ⟨g.tree.size⟩ = some (.element e) := by
  obtain ⟨c, hc, htext⟩ := innermost_holds h
  have hinner : innermost { g with tree := (g.tree.create (.element e)).2 } = g.innermost := rfl
  simp only [place, hinner]
  have happend := h.linked.append_new_element hc htext e
  by_cases hroot : g.innermost = Tree.root ∧
      (g.tree.create (.element e)).2.documentElement?.isSome = true
  · rw [if_pos hroot] at happend
    obtain ⟨refuge, p, e', hrefuge, hmem, he'⟩ := exists_refuge hroot.2
    rw [Tree.children_create] at hmem
    have hknown := h.linked.child_lt_size hmem
    have hcontent : g.tree.content? refuge = some (.element e') := by
      rw [← Tree.content?_create_of_lt (.element e) hknown, Tree.element?_eq_some.mp he']
    have hne : refuge ≠ Tree.root := by
      intro he
      rw [he, h.root] at hcontent
      cases hcontent
    have hrescue := h.linked.append_new_element hcontent (by simp) e
    rw [if_neg fun hr => hne hr.1] at hrescue
    simp only [happend, hrefuge, report, hrescue]
    exact ⟨_, rfl, rfl, rfl, h.appended hrescue⟩
  · rw [if_neg hroot] at happend
    simp only [happend]
    exact ⟨_, rfl, rfl, rfl, h.appended happend⟩

/-- What is opened between is never told of, and holds children. -/
theorem Standing.openBetween (h : Standing g.stack g.tree) (id : NodeId) :
    ∃ ws : List OpenElement, g.openBetween id = { g with stack := ws ++ g.stack } ∧
      announced ws = [] ∧ Standing (ws ++ g.stack) g.tree := by
  refine ⟨((g.tree.ancestors id).takeWhile (· ≠ g.innermost)).map (⟨·, false⟩), rfl, ?_,
    h.linked, h.root, ?_⟩
  · simp [announced, List.filter_map]
  · intro o ho
    rcases List.mem_append.mp ho with ho | ho
    · obtain ⟨a, ha, rfl⟩ := List.mem_map.mp ho
      have habove := h.linked.mem_ancestors.mp ((List.takeWhile_sublist _).subset ha)
      obtain ⟨c, hc⟩ := Tree.exists_content? (h.linked.above_lt_size habove)
      refine ⟨c, hc, ?_⟩
      rintro s rfl
      obtain ⟨b, hb, -⟩ := Relation.TransGen.head'_iff.mp habove
      have hleaf := h.linked.text_leaf a s (Tree.text?_eq_some.mpr hc)
      rw [← h.linked.mem_children, hleaf] at hb
      cases hb
    · exact h.holds o ho

end Places

/-! ## Steps -/

section Steps

variable {ω : Type} {observer : Observer ω} {tokens : List Token} {os : List OpenElement}
  {g : Growth (ω × List Notice)}

theorem log_notify (observer : Observer ω) (kind : EventKind) {id : NodeId} {content : Option Content}
    (h : g.tree.content? id = content) :
    (notify observer.recorded kind id g).memory.2 = g.memory.2 ++ [⟨⟨kind, id⟩, content⟩] := by
  rw [← h]
  rfl

/-- Whatever observers do, the tree can be grown as before. -/
theorem Standing.notify (hobserver : observer.Lawful) (h : Standing os g.tree) (kind : EventKind)
    (id : NodeId) : Standing os (notify observer.recorded kind id g).tree ∧
      g.tree.Keeps (notify observer.recorded kind id g).tree := by
  obtain ⟨ms, hms⟩ := hobserver ⟨kind, id⟩ g.tree g.memory.1
  have htree : (Growth.notify observer.recorded kind id g).tree = g.tree.mutateAll ms := hms
  have hkeeps := h.linked.keeps_mutateAll ms
  rw [htree]
  exact ⟨h.keeps (h.linked.mutateAll ms) hkeeps, hkeeps⟩

theorem Sound.takeText (hobserver : observer.Lawful) (h : Sound tokens g.stack g) (index : Nat)
    (s : String) : Sound (tokens ++ [.text s]) (g.takeText observer.recorded index s).stack
      (g.takeText observer.recorded index s) := by
  obtain ⟨c, hc, htext⟩ := innermost_holds h.standing
  have happend := h.standing.linked.append_new_text hc htext s
  obtain ⟨hstanding, hsize, hcontent⟩ := h.standing.appended happend
  generalize (g.tree.create (.text s)).2.attach g.innermost ⟨g.tree.size⟩ = t at *
  have hgrown : g.takeText observer.recorded index s =
      notify observer.recorded .textCreated ⟨g.tree.size⟩ { g with tree := t } := by
    simp only [Growth.takeText, Tree.create_fst, happend]
  rw [hgrown]
  obtain ⟨hstanding', hkeeps⟩ :=
    Standing.notify (g := { g with tree := t }) hobserver hstanding .textCreated ⟨g.tree.size⟩
  refine ⟨hstanding', ?_⟩
  rw [log_notify observer _ hcontent]
  exact ((h.told.grow (Nat.le_of_lt hsize)).text hsize s).grow hkeeps.size_le

theorem Sound.takeStart (hobserver : observer.Lawful) (h : Sound tokens g.stack g) (index : Nat)
    (tag : String) (attributes : List Attribute) :
    Sound (tokens ++ [.startTag tag attributes])
      (g.takeStart observer.recorded index tag attributes).stack
      (g.takeStart observer.recorded index tag attributes) := by
  obtain ⟨g₁, hplace, hstack, hmemory, hstanding, hsize, hcontent⟩ :=
    place_eq h.standing index tag (.ofSource tag attributes)
  rw [← hstack] at hstanding
  obtain ⟨ws, hopen, hws, hstanding⟩ := hstanding.openBetween ⟨g.tree.size⟩
  have htold : Told tokens (ws ++ g₁.stack) g.tree.size g₁.memory.2 := by
    rw [hmemory, hstack]
    exact ⟨by rw [announced_append, hws]; exact h.told.opened, h.told.arrivals, h.told.known,
      h.told.fresh⟩
  obtain ⟨hstanding', hkeeps⟩ := Standing.notify (g := { g₁ with stack := ws ++ g₁.stack })
    hobserver hstanding .elementStarted ⟨g.tree.size⟩
  have hlog := log_notify observer .elementStarted
    (g := { g₁ with stack := ws ++ g₁.stack }) hcontent
  simp only [Growth.takeStart, Tree.create_fst, hplace, hopen]
  by_cases hvoid : isVoid tag = true
  · obtain ⟨hended, hkeeps'⟩ := hstanding'.notify hobserver .elementEnded ⟨g.tree.size⟩
    simp only [hvoid, ↓reduceIte]
    refine ⟨hended, ?_⟩
    rw [log_notify observer _ rfl, hlog]
    exact (htold.void (Nat.le_refl _) hsize tag attributes).grow
      (Nat.le_trans hkeeps.size_le hkeeps'.size_le)
  · simp only [hvoid, Bool.false_eq_true, ↓reduceIte]
    refine ⟨hstanding'.opened (hkeeps.holds ⟨_, hcontent, by simp⟩), ?_⟩
    have hstart := htold.start (Nat.le_refl _) hsize (by simpa using hvoid) attributes
    rw [hlog]
    exact hstart.grow hkeeps.size_le

/-! ### Ends -/

theorem Sound.announceEnd (hobserver : observer.Lawful) {o : OpenElement}
    (h : Sound tokens (o :: os) g) : Sound tokens os (announceEnd observer.recorded g o) := by
  have hrest : Standing os g.tree :=
    ⟨h.standing.linked, h.standing.root, fun o ho => h.standing.holds o (.tail _ ho)⟩
  obtain ⟨id, announced⟩ := o
  cases announced with
  | false => exact ⟨hrest, h.told.opened, h.told.arrivals, h.told.known, h.told.fresh⟩
  | true =>
    obtain ⟨c, hc, -⟩ := h.standing.holds _ List.mem_cons_self
    obtain ⟨hstanding, hkeeps⟩ := hrest.notify hobserver .elementEnded id
    refine ⟨hstanding, ?_⟩
    have hlog := log_notify observer .elementEnded hc
    simp only [Growth.announceEnd, ↓reduceIte, hlog]
    exact (h.told.stop (Tree.lt_size_of_content? hc)).grow hkeeps.size_le

/-- To the tree and the observers, an implicit end is an end. -/
theorem closeImplicitly_eq_announceEnd {ω : Type} (observer : Observer ω) (index : Nat) (g : Growth ω)
    (o : OpenElement) :
    ∃ issues, closeImplicitly observer index g o = Growth.announceEnd observer { g with issues } o := by
  simp only [closeImplicitly, Growth.announceEnd]
  split
  · exact ⟨_, rfl⟩
  · exact ⟨g.issues, rfl⟩

theorem Sound.closeImplicitly (hobserver : observer.Lawful) (index : Nat) {o : OpenElement}
    (h : Sound tokens (o :: os) g) :
    Sound tokens os (closeImplicitly observer.recorded index g o) := by
  obtain ⟨issues, heq⟩ := closeImplicitly_eq_announceEnd observer.recorded index g o
  rw [heq]
  exact Sound.announceEnd (g := { g with issues }) hobserver ⟨h.standing, h.told⟩

theorem stack_announceEnd (g : Growth (ω × List Notice)) (o : OpenElement) :
    (Growth.announceEnd observer.recorded g o).stack = g.stack := by
  simp only [Growth.announceEnd]
  split <;> rfl

theorem stack_closeImplicitly (index : Nat) (g : Growth (ω × List Notice)) (o : OpenElement) :
    (Growth.closeImplicitly observer.recorded index g o).stack = g.stack := by
  obtain ⟨issues, heq⟩ := closeImplicitly_eq_announceEnd observer.recorded index g o
  rw [heq, stack_announceEnd]

/-- Open elements end one after the other; the stack is left to those that stay. -/
theorem Sound.foldl {f : Growth (ω × List Notice) → OpenElement → Growth (ω × List Notice)}
    (hf : ∀ {os g o}, Sound tokens (o :: os) g → Sound tokens os (f g o))
    (hstack : ∀ g o, (f g o).stack = g.stack) {closed : List OpenElement}
    (h : Sound tokens (closed ++ os) g) :
    Sound tokens os (closed.foldl f g) ∧ (closed.foldl f g).stack = g.stack := by
  induction closed generalizing g with
  | nil => exact ⟨h, rfl⟩
  | cons o closed ih =>
    rw [List.foldl_cons, ← hstack g o]
    exact ih (hf h)

theorem Sound.takeEnd (hobserver : observer.Lawful) (h : Sound tokens g.stack g) (index : Nat)
    (tag : String) : Sound (tokens ++ [.endTag tag]) (g.takeEnd observer.recorded index tag).stack
      (g.takeEnd observer.recorded index tag) := by
  have h' : Sound (tokens ++ [.endTag tag]) g.stack g := ⟨h.standing, h.told.endTag tag⟩
  simp only [Growth.takeEnd]
  split
  · exact h'
  · split
    · exact ⟨h'.standing, h'.told⟩
    · next closed rest hdrop =>
      have hsplit : g.stack.takeWhile (fun o => g.tree.tag? o.id ≠ some tag) ++ closed :: rest =
          g.stack := by
        rw [← hdrop]
        exact List.takeWhile_append_dropWhile
      rw [← hsplit] at h'
      obtain ⟨hclosed, hstack⟩ := Sound.foldl (g := { g with stack := rest })
        (Sound.closeImplicitly hobserver index) (stack_closeImplicitly index) ⟨h'.standing, h'.told⟩
      rw [stack_announceEnd, hstack]
      exact hclosed.announceEnd hobserver

/-! ## Whole documents -/

theorem Sound.take (hobserver : observer.Lawful) (h : Sound tokens g.stack g)
    (token : Nat × Token) : Sound (tokens ++ [token.2]) (take observer.recorded g token).stack
      (take observer.recorded g token) := by
  obtain ⟨index, token⟩ := token
  cases token with
  | text s => exact h.takeText hobserver index s
  | startTag tag attributes => exact h.takeStart hobserver index tag attributes
  | endTag tag => exact h.takeEnd hobserver index tag

theorem Sound.takeAll (hobserver : observer.Lawful) (h : Sound tokens g.stack g)
    (later : List (Nat × Token)) : Sound (tokens ++ later.map (·.2))
      (later.foldl (Growth.take observer.recorded) g).stack
      (later.foldl (Growth.take observer.recorded) g) := by
  induction later generalizing tokens g with
  | nil => simpa using h
  | cons token later ih =>
    rw [List.map_cons, List.append_cons, List.foldl_cons]
    exact ih (h.take hobserver token)

theorem sound_start (memory : ω) : Sound [] [] ({ memory := (memory, []) } : Growth (ω × List Notice)) where
  standing := ⟨Tree.linked_empty, rfl, by simp⟩
  told := ⟨.closed .nil, rfl, by simp, by simp [nodesOf]⟩

/-- Of a root that the document is given at the end nobody is told. -/
theorem memory_finish (index : Nat) : (g.finish observer.recorded index).memory =
    (g.stack.foldl (Growth.announceEnd observer.recorded) { g with stack := [] }).memory := by
  simp only [Growth.finish]
  generalize g.stack.foldl (Growth.announceEnd observer.recorded) { g with stack := [] } = g'
  by_cases hroot : g'.tree.documentElement?.isSome = true
  · simp only [hroot, ↓reduceIte]
  · simp only [hroot, Bool.false_eq_true, ↓reduceIte]
    cases (g'.tree.create (.element (.ofTag "HTML"))).2.append Tree.root
      (g'.tree.create (.element (.ofTag "HTML"))).1 with
    | ok t => simp only
    | error e => simp only [report]

theorem Sound.finish (hobserver : observer.Lawful) (h : Sound tokens g.stack g) (index : Nat) :
    ∃ size, Told tokens [] size (g.finish observer.recorded index).memory.2 := by
  rw [memory_finish]
  rw [← List.append_nil g.stack] at h
  exact ⟨_, (Sound.foldl (g := { g with stack := [] }) (Sound.announceEnd hobserver)
    stack_announceEnd ⟨h.standing, h.told⟩).1.told⟩

end Steps

end Growth

/-- **Events are nested.** Whatever lawful observers do to the tree, writing down what they are told
changes nothing; the texts and starts they are told of are those of the tokens, each once and in
order, no node starting twice; and where the document is read to its end, starts and ends are
nested, so that what ends is just what started. Where it breaks off, only ends are missing. -/
theorem events_nested {ω : Type} (p : Parser) (observers : List (Observer ω)) (memory : ω)
    (input : String) (hobservers : ∀ o ∈ observers, o.Lawful) :
    let outcome := p.parseWith (Observer.all observers).recorded (memory, []) input
    let log := outcome.2.1.2
    p.parseWith (Observer.all observers) memory input =
        (outcome.1, outcome.2.1.1, outcome.2.2) ∧
      log.filterMap Notice.arrival? =
        (read input.toList).tokens.filterMap (fun token => token.2.arrival?) ∧
      (nodesOf .elementStarted log).Nodup ∧
      match outcome.1 with
      | .ok _ => Nested log ∧ (nodesOf .elementEnded log).Perm (nodesOf .elementStarted log)
      | .error _ =>
        ∃ ends, (∀ n ∈ ends, n.event.kind = .elementEnded) ∧ Nested (log ++ ends) := by
  have hobserver := Observer.lawful_all hobservers
  refine ⟨parseWith_recorded p _ memory input, ?_⟩
  have hsound := Growth.Sound.takeAll (g := { memory := (memory, []) }) hobserver
    (Growth.sound_start memory) (read input.toList).tokens
  have harrivals : (read input.toList).tokens.filterMap (fun token => token.2.arrival?) =
      ((read input.toList).tokens.map (·.2)).filterMap Token.arrival? := by
    rw [List.filterMap_map]
    rfl
  rw [List.nil_append] at hsound
  rw [harrivals]
  have hread : readFrom p.reset.position 0 input.toList = read input.toList := rfl
  simp only [Parser.parseWith, hread]
  cases (read input.toList).failure? input.toList with
  | some failure =>
    exact ⟨hsound.told.arrivals, hsound.told.fresh, hsound.told.opened.completes⟩
  | none =>
    obtain ⟨size, htold⟩ := hsound.finish hobserver input.length
    have hnested := Opened.nested htold.opened
    dsimp only
    exact ⟨htold.arrivals, htold.fresh, hnested, hnested.ended_perm_started⟩

/-- One who takes out each node that it is told of. -/
def Observer.removing : Observer Unit :=
  fun event (t, memory) => (t.remove event.node, memory)

theorem Observer.lawful_removing : Observer.removing.Lawful :=
  fun event _ _ => ⟨[.remove event.node], rfl⟩

theorem events_nested_removing :
    (∀ o ∈ [Observer.removing], o.Lawful) ∧
    Nested (({} : Parser).parseWith (Observer.all [Observer.removing]).recorded ((), [])
      "<p>a<br></b>").2.1.2 := by
  have hobservers : ∀ o ∈ [Observer.removing], o.Lawful := by
    intro o ho
    rw [List.mem_singleton.mp ho]
    exact Observer.lawful_removing
  refine ⟨hobservers, ?_⟩
  have hok : (({} : Parser).parseWith (Observer.all [Observer.removing]).recorded ((), [])
      "<p>a<br></b>").1.toOption.isSome = true := by
    decide +kernel
  obtain ⟨-, -, -, hnested⟩ := events_nested {} [Observer.removing] () "<p>a<br></b>" hobservers
  split at hnested
  · exact hnested.1
  · next h =>
    rw [h] at hok
    cases hok

end Markup

end Hypertext
