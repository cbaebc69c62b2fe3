/-
Starts and ends as brackets. A log is nested where each start has its end and
what lies between the two is nested itself; on the way there it is open, with
some elements started and not ended (`Opened`), the innermost first. An open
log always comes to a nested one: its elements have only to end, one after the
other.
-/
import Hypertext.Proofs.Markup.Recording

namespace Hypertext.Markup

/-- The notice is of a void element. -/
def Notice.Void (n : Notice) : Prop :=
  ∃ e, n.content = some (.element e) ∧ isVoid e.tag = true

/-- Each element that starts ends, once all that started inside it has ended; inside a void element
is nothing at all. Texts may come anywhere else. -/
inductive Nested : List Notice → Prop where
  | nil : Nested []
  | text {n rest} : n.event.kind = .textCreated → Nested rest → Nested (n :: rest)
  | element {start inside stop rest} : start.event.kind = .elementStarted →
    stop.event = ⟨.elementEnded, start.event.node⟩ → (start.Void → inside = []) →
    Nested inside → Nested rest → Nested (start :: inside ++ stop :: rest)

/-- A log after which some elements are open, none of them void, the innermost first. -/
inductive Opened : List NodeId → List Notice → Prop where
  | closed {log} : Nested log → Opened [] log
  | inside {ids log start more} : Opened ids log → start.event.kind = .elementStarted →
    ¬ start.Void → Nested more → Opened (start.event.node :: ids) (log ++ start :: more)

/-- The nodes of the notices of one kind. -/
def nodesOf (kind : EventKind) (log : List Notice) : List NodeId :=
  (log.filter (·.event.kind = kind)).map (·.event.node)

section Logs

variable {ids : List NodeId} {log more : List Notice} {n : Notice} {kind : EventKind}

theorem nodesOf_append : nodesOf kind (log ++ more) = nodesOf kind log ++ nodesOf kind more := by
  rw [nodesOf, List.filter_append, List.map_append, nodesOf, nodesOf]

theorem nodesOf_cons_of_eq (h : n.event.kind = kind) :
    nodesOf kind (n :: log) = n.event.node :: nodesOf kind log := by
  simp [nodesOf, h]

theorem nodesOf_cons_of_ne (h : n.event.kind ≠ kind) : nodesOf kind (n :: log) = nodesOf kind log := by
  simp [nodesOf, h]

theorem nodesOf_concat_of_ne (h : n.event.kind ≠ kind) :
    nodesOf kind (log ++ [n]) = nodesOf kind log := by
  rw [nodesOf_append, nodesOf_cons_of_ne h]
  exact List.append_nil _

theorem mem_of_mem_nodesOf {id : NodeId} (h : id ∈ nodesOf kind log) :
    ∃ n ∈ log, n.event.node = id := by
  simp only [nodesOf, List.mem_map, List.mem_filter] at h
  obtain ⟨n, ⟨hn, -⟩, h⟩ := h
  exact ⟨n, hn, h⟩

/-! ## Nested logs -/

theorem Nested.append (h : Nested log) (h' : Nested more) : Nested (log ++ more) := by
  induction h with
  | nil => exact h'
  | text hkind _ ih => exact .text hkind ih
  | element hstart hstop hvoid hinside _ _ ih =>
    rw [List.append_assoc, List.cons_append]
    exact .element hstart hstop hvoid hinside ih

/-- An element that ends as soon as it starts. -/
theorem Nested.pair {start stop : Notice} (hstart : start.event.kind = .elementStarted)
    (hstop : stop.event = ⟨.elementEnded, start.event.node⟩) : Nested [start, stop] :=
  .element hstart hstop (fun _ => rfl) .nil .nil

/-- What starts in a nested log is what ends there. -/
theorem Nested.ended_perm_started (h : Nested log) :
    (nodesOf .elementEnded log).Perm (nodesOf .elementStarted log) := by
  induction h with
  | nil => exact .refl _
  | text hkind _ ih =>
    rw [nodesOf_cons_of_ne (by simp [hkind]), nodesOf_cons_of_ne (by simp [hkind])]
    exact ih
  | @element start inside stop rest hstart hstop _ _ _ ihinside ihrest =>
    have hended : stop.event.kind = .elementEnded := by rw [hstop]
    rw [nodesOf_append, nodesOf_append, nodesOf_cons_of_ne (by simp [hstart]),
      nodesOf_cons_of_eq hended, nodesOf_cons_of_eq hstart, nodesOf_cons_of_ne (by simp [hended]),
      hstop]
    exact List.perm_middle.trans (.cons _ (ihinside.append ihrest))

/-! ## Open logs -/

theorem Opened.nested (h : Opened [] log) : Nested log := by
  cases h with
  | closed h => exact h

theorem Opened.append (h : Opened ids log) (hmore : Nested more) : Opened ids (log ++ more) := by
  cases h with
  | closed h => exact .closed (h.append hmore)
  | inside h hstart hvoid hinside =>
    rw [List.append_assoc, List.cons_append]
    exact .inside h hstart hvoid (hinside.append hmore)

/-- An element starts. -/
theorem Opened.start {id : NodeId} (h : Opened ids log) (hstart : n.event = ⟨.elementStarted, id⟩)
    (hvoid : ¬ n.Void) : Opened (id :: ids) (log ++ [n]) := by
  have hopened := h.inside (by rw [hstart]) hvoid .nil
  rw [hstart] at hopened
  exact hopened

/-- The innermost element ends. -/
theorem Opened.close {id : NodeId} (h : Opened (id :: ids) log)
    (hstop : n.event = ⟨.elementEnded, id⟩) : Opened ids (log ++ [n]) := by
  cases h with
  | inside h hstart hvoid hinside =>
    rw [List.append_assoc, List.cons_append]
    exact h.append (.element hstart hstop (fun hv => absurd hv hvoid) hinside .nil)

/-- With the ends of what is open added, a log is nested. -/
theorem Opened.completes (h : Opened ids log) :
    ∃ ends, (∀ n ∈ ends, n.event.kind = .elementEnded) ∧ Nested (log ++ ends) := by
  induction ids generalizing log with
  | nil => exact ⟨[], by simp, by rw [List.append_nil]; exact h.nested⟩
  | cons id ids ih =>
    obtain ⟨ends, hends, hnested⟩ := ih (h.close (n := ⟨⟨.elementEnded, id⟩, none⟩) rfl)
    refine ⟨_ :: ends, ?_, by rw [List.append_cons]; exact hnested⟩
    rintro n (_ | ⟨_, hn⟩)
    · rfl
    · exact hends n hn

end Logs

end Hypertext.Markup
