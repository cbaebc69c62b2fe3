/-
Events in document order. A tour of a tree tells of the texts and of the starts
in the order in which a walk of the tree meets them, each before what is in it,
and of the ends in the order in which a walk that comes to a node after what is
in it meets them (`Tour.arrived`, `Tour.ended`). The events of a document are a
tour of its tree (`toured_of_source`), so they come in these orders.

An element that is moved into the root starts after the texts that it is put
before; hence the documents here are unmoved.
-/
import Hypertext.Proofs.Tree.Order
import Hypertext.Proofs.Selector.Streaming

namespace Hypertext

namespace Tree

/-- A node and all below it, each after its descendants and its earlier siblings'. -/
def postorderFrom (t : Tree) : Nat → NodeId → List NodeId
  | 0, _ => []
  | fuel + 1, id => (t.children id).flatMap (t.postorderFrom fuel) ++ [id]

def postorder (t : Tree) (id : NodeId) : List NodeId :=
  t.postorderFrom t.size id

variable {t : Tree} {id : NodeId}

theorem Linked.postorder_eq (hl : t.Linked) (hid : id.index < t.size) :
    t.postorder id = (t.children id).flatMap t.postorder ++ [id] := by
  have hmore : t.postorderFrom (t.size + 1) id = t.postorder id := by
    refine hl.fuel_irrelevant (f := t.postorderFrom) (fun n m id h => ?_) hid (by omega) (by omega)
    rw [postorderFrom, postorderFrom, List.flatMap_congr h]
  rw [← hmore]
  rfl

theorem text?_eq_none_of_isElement (h : t.isElement id = true) : t.text? id = none :=
  Option.eq_none_iff_forall_ne_some.mpr fun _ hs => not_isElement_of_text? hs h

end Tree

namespace Markup

section Tours

variable {t : Tree} {S : NodeId → Prop} [DecidablePred S] {ids : List NodeId} {log : List Event}

/-- The texts and starts of a tour are the texts and the elements that `S` holds of, in the order of
a walk. -/
theorem Tour.arrived (h : Tour t S ids log) (hl : t.Linked) (hids : ∀ id ∈ ids, id.index < t.size) :
    (log.filter (·.kind ≠ .elementEnded)).map (·.node) =
      (ids.flatMap t.walk).filter fun id => (t.text? id).isSome ∨ S id := by
  induction h with
  | nil => rfl
  | @text id s rest log htext _ ih =>
    have hrest := ih fun x hx => hids x (.tail _ hx)
    have hwalk := hl.walk_eq (hids id List.mem_cons_self)
    rw [hl.text_leaf id s htext, List.flatMap_nil] at hwalk
    simpa [hwalk, htext] using hrest
  | @element id rest inside log _ hstarted _ _ ihinside ihrest =>
    have hinside := ihinside fun x hx => hl.child_lt_size hx
    have hrest := ihrest fun x hx => hids x (.tail _ hx)
    have hwalk := hl.walk_eq (hids id List.mem_cons_self)
    simpa [hwalk, hstarted] using congrArg₂ (· ++ ·) hinside hrest
  | @wrapper id rest inside log helement hsilent _ _ ihinside ihrest =>
    have hinside := ihinside fun x hx => hl.child_lt_size hx
    have hrest := ihrest fun x hx => hids x (.tail _ hx)
    have hwalk := hl.walk_eq (hids id List.mem_cons_self)
    have htext := Tree.text?_eq_none_of_isElement helement
    simpa [hwalk, hsilent, htext] using congrArg₂ (· ++ ·) hinside hrest

/-- The ends of a tour are the elements that `S` holds of, each after what is in it. -/
theorem Tour.ended (h : Tour t S ids log) (hl : t.Linked) (hids : ∀ id ∈ ids, id.index < t.size)
    (hS : ∀ id, S id → t.isElement id = true) :
    (log.filter (·.kind = .elementEnded)).map (·.node) = (ids.flatMap t.postorder).filter S := by
  induction h with
  | nil => rfl
  | @text id s rest log htext _ ih =>
    have hrest := ih fun x hx => hids x (.tail _ hx)
    have hsilent : ¬ S id := fun hs => Tree.not_isElement_of_text? htext (hS id hs)
    have horder := hl.postorder_eq (hids id List.mem_cons_self)
    rw [hl.text_leaf id s htext, List.flatMap_nil] at horder
    simpa [horder, hsilent] using hrest
  | @element id rest inside log _ hstarted _ _ ihinside ihrest =>
    have hinside := ihinside fun x hx => hl.child_lt_size hx
    have hrest := ihrest fun x hx => hids x (.tail _ hx)
    have horder := hl.postorder_eq (hids id List.mem_cons_self)
    simpa [horder, hstarted] using congrArg₂ (· ++ id :: ·) hinside hrest
  | @wrapper id rest inside log _ hsilent _ _ ihinside ihrest =>
    have hinside := ihinside fun x hx => hl.child_lt_size hx
    have hrest := ihrest fun x hx => hids x (.tail _ hx)
    have horder := hl.postorder_eq (hids id List.mem_cons_self)
    simpa [horder, hsilent] using congrArg₂ (· ++ ·) hinside hrest

end Tours

/-- The nodes of the texts and the starts, in the order in which they are told of. -/
def arrivedIn (log : List Notice) : List NodeId :=
  (log.filter (·.event.kind ≠ .elementEnded)).map (·.event.node)

/-- What is told of a document in which nothing is moved comes in the two orders of its tree. -/
theorem Toured.orders {t : Tree} {log : List Notice} (h : Toured t log) :
    (arrivedIn log = (t.walk Tree.root).filter fun id =>
        (t.text? id).isSome ∨ id ∈ nodesOf .elementStarted log) ∧
      nodesOf .elementEnded log =
        (t.postorder Tree.root).filter (· ∈ nodesOf .elementStarted log) := by
  have hl := h.linked
  have hroot := Tree.lt_size_of_content? h.document
  have hknown : ∀ id ∈ t.children Tree.root, id.index < t.size := fun _ => hl.child_lt_size
  have helement : ∀ id ∈ nodesOf .elementStarted log, t.isElement id = true := fun id hid =>
    (h.above_of_started hid).2
  -- the document itself is neither a text nor an element
  have htext : t.text? Tree.root = none := by simp only [Tree.text?, h.document]
  have hsilent : Tree.root ∉ nodesOf .elementStarted log := by
    intro hmem
    obtain ⟨e, he⟩ := Tree.isElement_iff.mp (helement _ hmem)
    cases h.document.symm.trans he
  constructor
  · have harrived := h.tour.arrived hl hknown
    rw [hl.walk_eq hroot, List.filter_cons_of_neg (by simp [htext, hsilent]), ← harrived, arrivedIn,
      List.filter_map, List.map_map]
    rfl
  · have hended := h.tour.ended hl hknown helement
    rw [hl.postorder_eq hroot, List.filter_append, List.filter_cons_of_neg (by simp [hsilent]),
      List.filter_nil, List.append_nil, ← hended, nodesOf, List.filter_map, List.map_map]
    rfl

section Documents

variable {ω : Type}

/-- Of what it is told, an onlooker writes down what one would who does nothing else. -/
theorem Observer.Idle.mirrors_recorded {o : Observer ω} (h : o.Idle) :
    Observer.Mirrors (fun memory : ω × List Notice => ((), memory.2)) o.recorded
      unwatched.recorded := by
  intro event t memory
  have htree : (o.recorded event (t, memory)).1 = t := h event t memory.1
  rw [htree]
  rfl

theorem parse_recorded {o : Observer ω} (h : o.Idle) (memory : ω) {p p' : Parser} {input : String}
    {t : Tree} (hparse : p.parse input = (.ok t, p')) :
    ∃ memory', p.parseWith o.recorded (memory, []) input = (.ok t, (memory', sourceLog input), p') := by
  have hmirrored := parseWith_mirrored h.mirrors_recorded p (memory, []) input
  rw [recorded_of_parse hparse] at hmirrored
  rcases houtcome : p.parseWith o.recorded (memory, []) input with ⟨result, ⟨memory', log⟩, q⟩
  rw [houtcome] at hmirrored
  simp only [Prod.mk.injEq, true_and] at hmirrored
  obtain ⟨rfl, rfl, rfl⟩ := hmirrored
  exact ⟨memory', rfl⟩

/-- **Events come in document order.** Onlookers are told of each text and each start tag of a
document in which nothing is moved, in the order in which these stand in the tree, each element
before what is in it; and of the end of each such element in the order in which they stand there
when each comes after what is in it. -/
theorem events_in_document_order {observers : List (Observer ω)} (hidle : ∀ o ∈ observers, o.Idle)
    (memory : ω) {p p' : Parser} {input : String} {t : Tree}
    (hparse : p.parse input = (.ok t, p')) (hunmoved : Unmoved p'.issues) :
    ∃ memory' log,
      p.parseWith (Observer.all observers) memory input = (.ok t, memory', p') ∧
      p.parseWith (Observer.all observers).recorded (memory, []) input =
        (.ok t, (memory', log), p') ∧
      log.filterMap Notice.arrival? =
        (read input.toList).tokens.filterMap (fun token => token.2.arrival?) ∧
      nodesOf .elementStarted log = sourceElements input ∧
      (arrivedIn log = (t.walk Tree.root).filter fun id =>
        (t.text? id).isSome ∨ id ∈ sourceElements input) ∧
      nodesOf .elementEnded log = (t.postorder Tree.root).filter (· ∈ sourceElements input) := by
  obtain ⟨memory', hrecorded⟩ := parse_recorded (Observer.idle_all hidle) memory hparse
  refine ⟨memory', sourceLog input, ?_, hrecorded, arrivals_sourceLog hparse, rfl,
    (toured_of_source hparse hunmoved).orders⟩
  rw [parseWith_recorded, hrecorded]

/-- The paragraph is made before the wrappers that it stands in, of which nobody is told. -/
theorem events_in_document_order_logged :
    (∀ o ∈ [logger], o.Idle) ∧
      ∃ t p', ({} : Parser).parse "a<p>b<i>" = (.ok t, p') ∧ Unmoved p'.issues ∧
        ∃ memory log, ({} : Parser).parseWith (Observer.all [logger]).recorded ([], []) "a<p>b<i>" =
            (.ok t, (memory, log), p') ∧
          arrivedIn log = [⟨1⟩, ⟨2⟩, ⟨5⟩, ⟨6⟩] ∧ nodesOf .elementEnded log = [⟨6⟩, ⟨2⟩] ∧
          t.walk Tree.root = [⟨0⟩, ⟨1⟩, ⟨3⟩, ⟨4⟩, ⟨2⟩, ⟨5⟩, ⟨6⟩] := by
  have hidle : ∀ o ∈ [logger], o.Idle := by
    intro o ho
    rw [List.mem_singleton.mp ho]
    exact Observer.idle_logger
  have hsource : sourceElements "a<p>b<i>" = [⟨2⟩, ⟨6⟩] := by decide +kernel
  have hfound : (({} : Parser).parse "a<p>b<i>").1.toOption.map (fun t => (t.walk Tree.root,
      (t.walk Tree.root).filter (fun id => (t.text? id).isSome ∨ id ∈ [⟨2⟩, ⟨6⟩]),
        (t.postorder Tree.root).filter (· ∈ [⟨2⟩, ⟨6⟩]))) =
      some ([⟨0⟩, ⟨1⟩, ⟨3⟩, ⟨4⟩, ⟨2⟩, ⟨5⟩, ⟨6⟩], [⟨1⟩, ⟨2⟩, ⟨5⟩, ⟨6⟩], [⟨6⟩, ⟨2⟩]) := by
    decide +kernel
  have hissues : (({} : Parser).parse "a<p>b<i>").2.issues = [] := by decide +kernel
  obtain ⟨t, p', hparse, hunmoved, horders⟩ := exists_parsed hfound hissues
  obtain ⟨memory, log, -, hrecorded, -, -, harrived, hended⟩ :=
    events_in_document_order hidle [] hparse hunmoved
  rw [hsource] at harrived hended
  rw [Prod.mk.injEq, Prod.mk.injEq, ← harrived, ← hended] at horders
  exact ⟨hidle, t, p', hparse, hunmoved, memory, log, hrecorded, horders.2.1, horders.2.2,
    horders.1⟩

end Documents

end Markup

end Hypertext
