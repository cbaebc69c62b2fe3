/-
The root of a document. Growing does to the tree what its observers may do, and
nothing else: it makes nodes and appends them. So as long as they too insert by
appending only, every document is in shape once it is read, also where they
take out what is open, the root and the wrappers among it; and the root that is
made at the end, where there is none by then, is the only one.
-/
import Hypertext.Proofs.Markup.Reaching
import Hypertext.Proofs.Markup.Tour
import Hypertext.Proofs.Tree.Shape

namespace Hypertext.Markup

variable {ω : Type}

/-- The observer changes trees by mutations, and inserts by appending only. -/
def Observer.Appending (observer : Observer ω) : Prop :=
  ∀ event (t : Tree) memory, t.Raised (observer event (t, memory)).1

theorem Observer.appending_all {observers : List (Observer ω)} (h : ∀ o ∈ observers, o.Appending) :
    (Observer.all observers).Appending := by
  intro event t memory
  induction observers generalizing t memory with
  | nil => exact .refl t
  | cons o rest ih =>
    exact (h o List.mem_cons_self event t memory).trans
      (ih (fun o ho => h o (List.mem_cons_of_mem _ ho)) _ _)

namespace Growth

variable {observer : Observer ω} (hobserver : observer.Appending)
include hobserver

/-- What a growth reaches it reaches by mutations, none of which inserts before a node. -/
theorem Reaches.raised {g g' : Growth ω} (h : Reaches observer g g') : g.tree.Raised g'.tree := by
  induction h with
  | refl => exact .refl _
  | tail _ hmove ih =>
    refine ih.trans ?_
    cases hmove with
    | gain hgain =>
      cases hgain with
      | loose content => exact Tree.raised_create _ content
      | @appended content _ _ happend =>
        exact (Tree.raised_create _ content).trans (Tree.raised_append happend)
    | tell kind id _ => exact hobserver ⟨kind, id⟩ _ _
    | restack _ => exact .refl _
    | report _ _ => exact .refl _

theorem raised_takeText (index : Nat) (s : String) (g : Growth ω) :
    g.tree.Raised (g.takeText observer index s).tree :=
  (reaches_takeText index s g).raised hobserver

theorem raised_takeStart (index : Nat) (tag : String) (attributes : List Attribute)
    (g : Growth ω) : g.tree.Raised (g.takeStart observer index tag attributes).tree :=
  (reaches_takeStart index tag attributes g).raised hobserver

omit hobserver in
theorem raised_foldl {α : Type} {f : Growth ω → α → Growth ω}
    (hf : ∀ (g : Growth ω) a, g.tree.Raised (f g a).tree) (l : List α) (g : Growth ω) :
    g.tree.Raised (l.foldl f g).tree := by
  induction l generalizing g with
  | nil => exact .refl _
  | cons a l ih => exact (hf g a).trans (ih _)

theorem raised_take (g : Growth ω) (token : Nat × Token) :
    g.tree.Raised (take observer g token).tree :=
  (reaches_take g token).raised hobserver

theorem raised_closed (g : Growth ω) :
    g.tree.Raised (g.stack.foldl (announceEnd observer) { g with stack := [] }).tree :=
  (reaches_foldl reaches_announceEnd g.stack { g with stack := [] }).raised hobserver

theorem raised_finish (index : Nat) (g : Growth ω) :
    g.tree.Raised (g.finish observer index).tree :=
  (reaches_finish index g).raised hobserver

/-- A document that is in shape when it is finished has got a root. -/
theorem exists_root_finish (index : Nat) {g : Growth ω} (h : g.tree.Housed) :
    (g.finish observer index).tree.documentElement?.isSome = true := by
  have hclosed := h.raised (raised_closed hobserver g)
  have hstanding : Standing [] (g.stack.foldl (announceEnd observer) { g with stack := [] }).tree :=
    ⟨hclosed.linked, hclosed.document, by simp⟩
  rw [finish_eq_rooted index g hstanding]
  exact documentElement?_rooted hstanding

end Growth

/-- **The root of a document.** Whatever observers do that insert by appending only: a document that
is read to its end has exactly one element below it, an `HTML`, and the elements below every `HTML`
are `HEAD`s and `BODY`s. -/
theorem root_of_parse {p p' : Parser} {observers : List (Observer ω)} {memory memory' : ω}
    {input : String} {t : Tree} (hobservers : ∀ o ∈ observers, o.Appending)
    (hparse : p.parseWith (Observer.all observers) memory input = (.ok t, memory', p')) :
    (∃ html, t.childElements Tree.root = [html] ∧ t.tag? html = some "HTML") ∧
      ∀ html, t.tag? html = some "HTML" →
        ∀ id ∈ t.childElements html, t.tag? id = some "HEAD" ∨ t.tag? id = some "BODY" := by
  obtain ⟨-, htree, -⟩ := parseWith_eq_ok hparse
  have hobserver := Observer.appending_all hobservers
  have hread : Tree.Housed _ := Tree.housed_empty.raised
    (Growth.raised_foldl (Growth.raised_take hobserver) (read input.toList).tokens { memory })
  have hfinished := hread.raised (Growth.raised_finish hobserver input.length _)
  have hsome := Growth.exists_root_finish hobserver input.length hread
  rw [htree] at hfinished hsome
  exact ⟨hfinished.exists_root hsome, hfinished.sectioned⟩

theorem Observer.appending_removing : Observer.removing.Appending :=
  fun event _ _ => Tree.raised_mutate (m := .remove event.node) trivial

/-- The root of the source is taken out as soon as it starts; the paragraph brings another one, and
is taken out of that. -/
theorem root_of_parse_removing :
    let outcome := ({} : Parser).parseWith (Observer.all [Observer.removing]) ()
      "<html>x</html><p>y"
    (∀ o ∈ [Observer.removing], o.Appending) ∧
      ∃ t, outcome.1 = .ok t ∧
        (∃ html, t.childElements Tree.root = [html] ∧ t.tag? html = some "HTML") ∧
        ∀ html, t.tag? html = some "HTML" →
          ∀ id ∈ t.childElements html, t.tag? id = some "HEAD" ∨ t.tag? id = some "BODY" := by
  intro outcome
  have hobservers : ∀ o ∈ [Observer.removing], o.Appending := by
    intro o ho
    rw [List.mem_singleton.mp ho]
    exact Observer.appending_removing
  have hok : outcome.1.toOption.isSome = true := by decide +kernel
  obtain ⟨t, ht⟩ := Option.isSome_iff_exists.mp hok
  refine ⟨hobservers, t, ?_⟩
  rcases houtcome : outcome with ⟨_ | t', memory, p⟩
  · rw [houtcome] at ht
    cases ht
  · rw [houtcome] at ht
    cases ht
    exact ⟨rfl, root_of_parse hobservers houtcome⟩

end Hypertext.Markup
