/-
What observers are told while a document is read, written down. A recorded
observer does what it did before, and the parser gives the same
(`parseWith_recorded`): what is written down is what happens anyway.

It is so for any two observers that do the same to trees, and of which one
remembers what can be told from the memory of the other (`Observer.Mirrors`).
-/
import Hypertext.Markup.Parser
import Hypertext.Proofs.Tree.Runs

namespace Hypertext.Markup

variable {ω ω' : Type}

/-- An event, and what its node contained when it came. -/
structure Notice where
  event : Event
  content : Option Content

/-- The observer, with all it is told written down before it acts. -/
def Observer.recorded (observer : Observer ω) : Observer (ω × List Notice) :=
  fun event (t, memory, log) =>
    let (t', memory) := observer event (t, memory)
    (t', memory, log ++ [⟨event, t.content? event.node⟩])

/-- The observer changes trees by mutations only, as many as it likes. -/
def Observer.Lawful (observer : Observer ω) : Prop :=
  ∀ event t memory, ∃ ms, (observer event (t, memory)).1 = t.mutateAll ms

theorem Observer.lawful_all {observers : List (Observer ω)} (h : ∀ o ∈ observers, o.Lawful) :
    (Observer.all observers).Lawful := by
  intro event t memory
  induction observers generalizing t memory with
  | nil => exact ⟨[], rfl⟩
  | cons o rest ih =>
    obtain ⟨ms, hms⟩ := h o List.mem_cons_self event t memory
    obtain ⟨ms', hms'⟩ := ih (fun o ho => h o (List.mem_cons_of_mem _ ho))
      (o event (t, memory)).1 (o event (t, memory)).2
    refine ⟨ms ++ ms', ?_⟩
    rw [Tree.mutateAll, List.foldl_append, ← Tree.mutateAll, ← Tree.mutateAll, ← hms, ← hms']
    rfl

/-- The second observer does what the first one does, and remembers as much of it as `f` tells. -/
def Observer.Mirrors (f : ω → ω') (observer : Observer ω) (observer' : Observer ω') : Prop :=
  ∀ event t memory, observer' event (t, f memory) =
    ((observer event (t, memory)).1, f (observer event (t, memory)).2)

theorem Observer.mirrors_recorded (observer : Observer ω) :
    Observer.Mirrors Prod.fst observer.recorded observer :=
  fun _ _ _ => rfl

theorem Observer.Mirrors.recorded {f : ω → ω'} {observer : Observer ω} {observer' : Observer ω'}
    (h : observer.Mirrors f observer') :
    observer.recorded.Mirrors (Prod.map f id) observer'.recorded := by
  rintro event t ⟨memory, log⟩
  simp only [Observer.recorded, Prod.map_apply, id_eq, h event t memory]

namespace Growth

/-- The growth with another memory. -/
def mapMemory (f : ω → ω') (g : Growth ω) : Growth ω' where
  tree := g.tree
  stack := g.stack
  issues := g.issues
  memory := f g.memory

@[simp] theorem mapMemory_tree (f : ω → ω') (g : Growth ω) : (g.mapMemory f).tree = g.tree := rfl

@[simp] theorem mapMemory_stack (f : ω → ω') (g : Growth ω) : (g.mapMemory f).stack = g.stack := rfl

@[simp] theorem mapMemory_innermost (f : ω → ω') (g : Growth ω) :
    (g.mapMemory f).innermost = g.innermost := rfl

section Mirrored

variable {f : ω → ω'} {observer : Observer ω} {observer' : Observer ω'}
  (h : observer.Mirrors f observer') (g : Growth ω)
include h

theorem mapMemory_notify (kind : EventKind) (id : NodeId) :
    (notify observer kind id g).mapMemory f = notify observer' kind id (g.mapMemory f) := by
  simp only [notify, mapMemory, h _ _ _]

theorem mapMemory_takeText (index : Nat) (s : String) :
    (g.takeText observer index s).mapMemory f = (g.mapMemory f).takeText observer' index s := by
  simp only [takeText, mapMemory_tree, mapMemory_innermost]
  split
  · exact mapMemory_notify h _ _ _
  · rfl

omit h in
theorem mapMemory_place (index : Nat) (id : NodeId) (tag : String) :
    ((place index id tag g).1.mapMemory f, (place index id tag g).2) =
      place index id tag (g.mapMemory f) := by
  simp only [place, mapMemory, innermost]
  split
  · rfl
  · split
    · rfl
    · simp only [report]
      split <;> rfl
  · rfl

theorem mapMemory_takeStart (index : Nat) (tag : String) (attributes : List Attribute) :
    (g.takeStart observer index tag attributes).mapMemory f =
      (g.mapMemory f).takeStart observer' index tag attributes := by
  simp only [takeStart, mapMemory_tree]
  obtain ⟨id, tree⟩ := g.tree.create
    (.element { Element.ofTag tag with attributes := .ofList attributes })
  have hplace : place index id tag { g.mapMemory f with tree } = _ :=
    (mapMemory_place (f := f) { g with tree } index id tag).symm
  simp only [hplace]
  obtain ⟨g', placed⟩ := place index id tag { g with tree }
  have hstarted := mapMemory_notify h (openBetween id g') .elementStarted id
  cases placed with
  | false => rfl
  | true =>
    dsimp only
    rw [show openBetween id (g'.mapMemory f) = (openBetween id g').mapMemory f from rfl, ← hstarted]
    split
    · exact mapMemory_notify h _ _ _
    · rfl

theorem mapMemory_closeImplicitly (index : Nat) (o : OpenElement) :
    (closeImplicitly observer index g o).mapMemory f =
      closeImplicitly observer' index (g.mapMemory f) o := by
  simp only [closeImplicitly]
  split
  · exact mapMemory_notify h _ _ _
  · rfl

theorem mapMemory_announceEnd (o : OpenElement) :
    (announceEnd observer g o).mapMemory f = announceEnd observer' (g.mapMemory f) o := by
  simp only [announceEnd]
  split
  · exact mapMemory_notify h _ _ _
  · rfl

omit h in
theorem mapMemory_foldl {α : Type} {step : Growth ω → α → Growth ω} {step' : Growth ω' → α → Growth ω'}
    (hstep : ∀ g a, (step g a).mapMemory f = step' (g.mapMemory f) a) (l : List α) :
    (l.foldl step g).mapMemory f = l.foldl step' (g.mapMemory f) := by
  induction l generalizing g with
  | nil => rfl
  | cons a l ih => rw [List.foldl_cons, List.foldl_cons, ih, hstep]

theorem mapMemory_takeEnd (index : Nat) (tag : String) :
    (g.takeEnd observer index tag).mapMemory f = (g.mapMemory f).takeEnd observer' index tag := by
  simp only [takeEnd]
  rw [mapMemory_stack, mapMemory_tree]
  split
  · rfl
  · split
    · rfl
    · rw [mapMemory_announceEnd h, mapMemory_foldl _ (mapMemory_closeImplicitly h · index)]
      rfl

theorem mapMemory_take (token : Nat × Token) :
    (take observer g token).mapMemory f = take observer' (g.mapMemory f) token := by
  obtain ⟨index, token⟩ := token
  cases token with
  | text s => exact mapMemory_takeText h g index s
  | startTag tag attributes => exact mapMemory_takeStart h g index tag attributes
  | endTag tag => exact mapMemory_takeEnd h g index tag

theorem mapMemory_finish (index : Nat) :
    (g.finish observer index).mapMemory f = (g.mapMemory f).finish observer' index := by
  have hended := mapMemory_foldl { g with stack := [] } (mapMemory_announceEnd h) g.stack
  simp only [finish]
  rw [mapMemory_stack,
    show { g.mapMemory f with stack := [] } = mapMemory f { g with stack := [] } from rfl,
    ← hended]
  generalize g.stack.foldl (announceEnd observer) { g with stack := [] } = g'
  rw [mapMemory_tree]
  split
  · rfl
  · split <;> rfl

end Mirrored

end Growth

/-- The parser gives the same to observers of which one mirrors the other. -/
theorem parseWith_mirrored {f : ω → ω'} {observer : Observer ω} {observer' : Observer ω'}
    (h : observer.Mirrors f observer') (p : Parser) (memory : ω) (input : String) :
    p.parseWith observer' (f memory) input =
      ((p.parseWith observer memory input).1, f (p.parseWith observer memory input).2.1,
        (p.parseWith observer memory input).2.2) := by
  have htaken := Growth.mapMemory_foldl { memory } (Growth.mapMemory_take h)
    (readFrom p.reset.position 0 input.toList).tokens
  rw [show Growth.mapMemory f { memory } = { memory := f memory } from rfl] at htaken
  simp only [Parser.parseWith]
  rw [← htaken]
  cases (readFrom p.reset.position 0 input.toList).failure? input.toList with
  | some failure => rfl
  | none =>
    dsimp only
    rw [← Growth.mapMemory_finish h]
    generalize Growth.finish observer input.length _ = g
    rfl

/-- Recording changes nothing. -/
theorem parseWith_recorded (p : Parser) (observer : Observer ω) (memory : ω) (input : String) :
    p.parseWith observer memory input =
      ((p.parseWith observer.recorded (memory, []) input).1,
        (p.parseWith observer.recorded (memory, []) input).2.1.1,
        (p.parseWith observer.recorded (memory, []) input).2.2) :=
  parseWith_mirrored observer.mirrors_recorded p (memory, []) input

end Hypertext.Markup
