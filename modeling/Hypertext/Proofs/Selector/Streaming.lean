/-
Selectors asked while a document is read. Growth adds to a tree and changes
nothing that is there, so what stands above an element is settled when it
starts, the wrappers made for it included; whoever only looks on sees at each
event a beginning of the tree that comes out (`Filmed`). Of that a selector
sees the elements from the node upwards, so its answer at the start of an
element is its answer in the end.
-/
import Hypertext.Markup.Edit
import Hypertext.Proofs.Markup.Reaching
import Hypertext.Proofs.Markup.Tour
import Hypertext.Proofs.Selector.Agreement

namespace Hypertext.Markup

variable {ω : Type}

/-! ## Onlookers -/

/-- The observer leaves trees as they are. -/
def Observer.Idle (observer : Observer ω) : Prop :=
  ∀ event t memory, (observer event (t, memory)).1 = t

theorem Observer.idle_all {observers : List (Observer ω)} (h : ∀ o ∈ observers, o.Idle) :
    (Observer.all observers).Idle := by
  intro event t memory
  induction observers generalizing t memory with
  | nil => rfl
  | cons o rest ih =>
    have hfirst : o event (t, memory) = (t, (o event (t, memory)).2) :=
      Prod.ext (h o List.mem_cons_self event t memory) rfl
    rw [Observer.all, List.foldl_cons, hfirst]
    exact ih (fun o ho => h o (.tail _ ho)) t _

/-- An event, and the whole tree when it came. -/
structure View where
  event : Event
  tree : Tree

def View.notice (v : View) : Notice :=
  ⟨v.event, v.tree.content? v.event.node⟩

/-- The observer, with the tree kept as it is whenever it is told of something. -/
def Observer.filmed (observer : Observer ω) : Observer (ω × List View) :=
  fun event (t, memory, film) =>
    let (t', memory) := observer event (t, memory)
    (t', memory, film ++ [⟨event, t⟩])

theorem Observer.Idle.filmed {o : Observer ω} (h : o.Idle) : o.filmed.Idle :=
  fun event t memory => h event t memory.1

/-- What a film shows, as a log. -/
def filmLog (memory : ω × List View) : Unit × List Notice :=
  ((), memory.2.map View.notice)

/-- For the tree and what is told of it, it is as if nobody watched. -/
theorem Observer.Idle.mirrors {o : Observer ω} (h : o.Idle) :
    Observer.Mirrors filmLog o.filmed unwatched.recorded := by
  intro event t memory
  have hlog : filmLog (o.filmed event (t, memory)).2 =
      ((), memory.2.map View.notice ++ [⟨event, t.content? event.node⟩]) := by
    simp [filmLog, Observer.filmed, View.notice]
  rw [hlog, h.filmed event t memory]
  rfl

/-- Onlookers do not disturb the parse, and they see every event of the source. -/
theorem parse_filmed {o : Observer ω} (h : o.Idle) (memory : ω) {p p' : Parser} {input : String}
    {t : Tree} (hparse : p.parse input = (.ok t, p')) :
    ∃ memory' film, p.parseWith o.filmed (memory, []) input = (.ok t, (memory', film), p') ∧
      film.map View.notice = sourceLog input := by
  have hrecorded := recorded_of_parse hparse
  have hmirrored := parseWith_mirrored h.mirrors p (memory, []) input
  rcases houtcome : p.parseWith o.filmed (memory, []) input with ⟨result, ⟨memory', film⟩, q⟩
  rw [houtcome, show filmLog (memory, []) = ((), []) from rfl, hrecorded] at hmirrored
  simp only [filmLog, Prod.mk.injEq, true_and] at hmirrored
  obtain ⟨rfl, hfilm, rfl⟩ := hmirrored
  exact ⟨memory', film, rfl, hfilm.symm⟩

/-- Each text and each start tag of the source is told of, in order. -/
theorem arrivals_sourceLog {p p' : Parser} {input : String} {t : Tree}
    (hparse : p.parse input = (.ok t, p')) :
    (sourceLog input).filterMap Notice.arrival? =
      (read input.toList).tokens.filterMap fun token => token.2.arrival? := by
  obtain ⟨-, -, hmemory, -⟩ := parseWith_eq_ok (recorded_of_parse hparse)
  have hsound := Growth.Sound.takeAll (g := { memory := ((), []) }) Growth.lawful_unwatched
    (Growth.sound_start ()) (read input.toList).tokens
  obtain ⟨size, htold⟩ := hsound.finish Growth.lawful_unwatched input.length
  have harrivals := htold.arrivals
  rw [hmemory, List.nil_append, List.filterMap_map] at harrivals
  exact harrivals

/-! ## What they see -/

/-- Each view is of a beginning of the tree. What starts there is known by then. -/
structure Filmed (t : Tree) (film : List View) : Prop where
  linked : t.Linked
  begins : ∀ v ∈ film, v.tree.Linked ∧ v.tree.Begins t
  known : ∀ v ∈ film, v.event.kind = .elementStarted → v.event.node.index < v.tree.size

theorem filmed_empty : Filmed .empty [] :=
  ⟨Tree.linked_empty, by simp, by simp⟩

variable {t : Tree} {film : List View}

theorem Filmed.gain (h : Filmed t film) {t' : Tree} (hgains : t.Gains t') : Filmed t' film where
  linked := h.linked.gains hgains
  begins v hv := ⟨(h.begins v hv).1, (h.begins v hv).2.trans hgains.begins⟩
  known := h.known

theorem Filmed.tell (h : Filmed t film) {kind : EventKind} {id : NodeId}
    (hid : kind = .elementEnded ∨ id.index < t.size) : Filmed t (film ++ [⟨⟨kind, id⟩, t⟩]) where
  linked := h.linked
  begins v hv := by
    rcases List.mem_append.mp hv with hv | hv
    · exact h.begins v hv
    · rw [List.mem_singleton.mp hv]
      exact ⟨h.linked, .refl t⟩
  known v hv hkind := by
    rcases List.mem_append.mp hv with hv | hv
    · exact h.known v hv hkind
    · rw [List.mem_singleton.mp hv] at hkind ⊢
      refine hid.resolve_left fun hended => ?_
      rw [hended] at hkind
      cases hkind

theorem Growth.Reaches.filmed {o : Observer ω} (ho : o.Idle) {g g' : Growth (ω × List View)}
    (h : Reaches o.filmed g g') (hg : Filmed g.tree g.memory.2) : Filmed g'.tree g'.memory.2 := by
  induction h with
  | refl => exact hg
  | @tail b _ _ hmove ih =>
    cases hmove with
    | gain hgains => exact ih.gain hgains
    | restack _ => exact ih
    | report _ _ => exact ih
    | tell kind id hid =>
      have htree : (notify o.filmed kind id b).tree = b.tree := ho.filmed _ _ _
      rw [htree]
      exact ih.tell hid

/-- What starts has its final outlook from the start. -/
theorem Filmed.matches_eq (h : Filmed t film) {v : View} (hv : v ∈ film)
    (hstart : v.event.kind = .elementStarted) (s : Selector) :
    s.matches v.tree v.event.node = s.matches t v.event.node := by
  obtain ⟨hlinked, hbegins⟩ := h.begins v hv
  exact (Selector.matches_congr s
    (hbegins.sameOutlook hlinked h.linked (h.known v hv hstart))).symm

/-- **A selector's answer at the start of an element is final.** Whatever onlookers a document that
has a tree is read with, they get that tree and are told of all that is to be told of it, each start
tag included; and every selector answers at each start of an element as it does for that node in the
end, be it yes, no or an error. In any two trees at all, a selector gives the same answer for two
nodes from which upwards the elements are the same, and the nodes that are none in the same
places. -/
theorem matches_at_start {observers : List (Observer ω)} (hidle : ∀ o ∈ observers, o.Idle)
    (memory : ω) {p p' : Parser} {input : String} {t : Tree}
    (hparse : p.parse input = (.ok t, p')) :
    (∃ memory' film,
      p.parseWith (Observer.all observers).filmed (memory, []) input = (.ok t, (memory', film), p') ∧
        film.map View.notice = sourceLog input ∧
        film.filterMap (fun v => v.notice.arrival?) =
          (read input.toList).tokens.filterMap (fun token => token.2.arrival?) ∧
        ∀ v ∈ film, v.event.kind = .elementStarted → ∀ s : Selector,
          s.matches v.tree v.event.node = s.matches t v.event.node) ∧
    ∀ (s : Selector) (u u' : Tree) (id id' : NodeId),
      (id' :: u'.ancestors id').map u'.element? = (id :: u.ancestors id).map u.element? →
        s.matches u' id' = s.matches u id := by
  refine ⟨?_, fun s u u' id id' h => Selector.matches_of_elements s h⟩
  have hall := Observer.idle_all hidle
  obtain ⟨memory', film, hfilmed, hnotices⟩ := parse_filmed hall memory hparse
  obtain ⟨g, hreached, hmemory, htree⟩ :=
    exists_reached p (Observer.all observers).filmed (memory, []) input
  rw [hfilmed] at hmemory htree
  have hfilm := hreached.filmed hall filmed_empty
  rw [← hmemory, ← htree t rfl] at hfilm
  have harrivals := arrivals_sourceLog hparse
  rw [← hnotices, List.filterMap_map] at harrivals
  exact ⟨memory', film, hfilmed, hnotices, harrivals, fun v hv hstart s => hfilm.matches_eq hv hstart s⟩

theorem Observer.idle_logger : logger.Idle :=
  fun _ _ _ => rfl

/-- The paragraph stands in wrappers that are made as it starts. In another document it has another
number, and above it the same elements. -/
theorem matches_at_start_logged :
    (∀ o ∈ [logger], o.Idle) ∧
      ∃ t p' t' q', ({} : Parser).parse "a<p>" = (.ok t, p') ∧
        ({} : Parser).parse "<p>" = (.ok t', q') ∧
        (∃ memory film, ({} : Parser).parseWith (Observer.all [logger]).filmed ([], []) "a<p>" =
            (.ok t, (memory, film), p') ∧
          ∀ v ∈ film, v.event.kind = .elementStarted → ∀ s : Selector,
            s.matches v.tree v.event.node = s.matches t v.event.node) ∧
        ∀ s : Selector, s.matches t' ⟨1⟩ = s.matches t ⟨2⟩ := by
  have hidle : ∀ o ∈ [logger], o.Idle := by
    intro o ho
    rw [List.mem_singleton.mp ho]
    exact Observer.idle_logger
  have hfound : (({} : Parser).parse "a<p>").1.toOption.map
      (fun t => ((⟨2⟩ : NodeId) :: t.ancestors ⟨2⟩).map t.element?) =
        some [some ⟨"P", {}⟩, some ⟨"BODY", {}⟩, some ⟨"HTML", {}⟩, none] := by
    decide +kernel
  have hfound' : (({} : Parser).parse "<p>").1.toOption.map
      (fun t => ((⟨1⟩ : NodeId) :: t.ancestors ⟨1⟩).map t.element?) =
        some [some ⟨"P", {}⟩, some ⟨"BODY", {}⟩, some ⟨"HTML", {}⟩, none] := by
    decide +kernel
  obtain ⟨t, p', hparse, helements⟩ := exists_tree hfound
  obtain ⟨t', q', hparse', helements'⟩ := exists_tree hfound'
  obtain ⟨⟨memory, film, hfilmed, -, -, hmatches⟩, hsame⟩ := matches_at_start hidle [] hparse
  exact ⟨hidle, t, p', t', q', hparse, hparse', ⟨memory, film, hfilmed, hmatches⟩,
    fun s => hsame s t t' ⟨2⟩ ⟨1⟩ (helements'.trans helements.symm)⟩

end Hypertext.Markup
