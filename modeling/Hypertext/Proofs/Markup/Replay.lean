/-
What is done to a document while it grows could as well be done afterwards. An
observer is local where all it does to the tree is to take out the node it is
told of, and where what it does depends on nothing but the outlook from there.
The tree that it leaves is then the one it would leave if it were told of all
events when the document is read to its end (`parseWith_eq_replay`).

While the document is read, what has been done so far is what would have been
done so far to any tree that begins like this one (`Mirrors`).
-/
import Hypertext.Proofs.Markup.Lockstep

namespace Hypertext

namespace Tree

/-- The tree, or what is left of it when the node is taken out. -/
def cut (t : Tree) (id : NodeId) (out : Bool) : Tree :=
  if out then t.remove id else t

variable {t t' : Tree} {gone : List NodeId} {id : NodeId}

theorem Pruned.cut (h : Pruned gone t t') (hl : t.Linked) (id : NodeId) (out : Bool) :
    Pruned (if out then id :: gone else gone) t (t'.cut id out) := by
  cases out with
  | false => exact h
  | true => exact h.remove hl id

theorem SameOutlook.cut (h : SameOutlook t t' id) (out : Bool) :
    SameOutlook (t.cut id out) (t'.cut id out) id := by
  cases out with
  | false => exact h
  | true => exact h.remove

/-- A node that has been taken out is out. -/
theorem cut_cut (t : Tree) (id : NodeId) (out again : Bool) :
    (t.cut id out).cut id again = t.cut id (out || again) := by
  cases out with
  | false => rfl
  | true =>
    cases again with
    | false => rfl
    | true =>
      refine remove_of_parent?_none ?_
      rw [Tree.cut, if_pos rfl, parent?_remove, if_pos rfl]

/-- Where a node is out already, it is no matter whether it is taken out. -/
theorem Begins.cut_eq {out out' : Bool} (h : t.Begins t') (hid : id.index < t.size)
    (heq : t.cut id out = t.cut id out') : t'.cut id out = t'.cut id out' := by
  have hsame : t.remove id = t → t'.remove id = t' := by
    intro heq
    refine remove_of_parent?_none ?_
    rw [h.parent id hid, ← heq, parent?_remove, if_pos rfl]
  cases out <;> cases out'
  · rfl
  · exact (hsame heq.symm).symm
  · exact hsame heq
  · rfl

end Tree

namespace Markup

open Growth

variable {ω : Type}

/-- With such a memory, the observer does nothing but take out the node it is told of or leave it,
and does the same where the outlook from there is the same. -/
def Observer.Local (o : Observer ω) (Fine : ω → Prop) : Prop :=
  ∀ event t t' m, Fine m → t.SameOutlook t' event.node →
    ∃ out m', Fine m' ∧ o event (t, m) = (t.cut event.node out, m') ∧
      o event (t', m) = (t'.cut event.node out, m')

/-- An observer is told of all that is in a log. -/
def replay (o : Observer ω) (log : List Notice) (s : Tree × ω) : Tree × ω :=
  log.foldl (fun s n => o n.event s) s

theorem replay_concat (o : Observer ω) (log : List Notice) (n : Notice) (s : Tree × ω) :
    replay o (log ++ [n]) s = o n.event (replay o log s) := by
  rw [replay, List.foldl_append]
  rfl

/-- The tree `t'` is what is left of `t` when the nodes `gone` are taken out. So does the observer
leave any tree that begins like `t` when told of the log, with the same memory `m`. -/
structure Mirrors (o : Observer ω) (Fine : ω → Prop) (memory : ω) (gone : List NodeId) (t : Tree)
    (log : List Notice) (t' : Tree) (m : ω) : Prop where
  fine : Fine m
  known : ∀ x ∈ gone, x.index < t.size
  pruned : Tree.Pruned gone t t'
  replayed : ∀ T : Tree, T.Linked → t.Begins T →
    ∃ u, replay o log (T, memory) = (u, m) ∧ Tree.Pruned gone T u

section Mirrors

variable {o : Observer ω} {Fine : ω → Prop} {memory m : ω} {gone : List NodeId} {t t' t₁ t₁' : Tree}
  {log : List Notice} {id : NodeId}

theorem mirrors_empty (hm : Fine memory) : Mirrors o Fine memory [] .empty [] .empty memory where
  fine := hm
  known := by simp
  pruned := .refl _
  replayed T _ _ := ⟨T, rfl, .refl T⟩

/-- The trees grow alike. -/
theorem Mirrors.grow (h : Mirrors o Fine memory gone t log t' m) (hbegins : t.Begins t₁)
    (hpruned : Tree.Pruned gone t₁ t₁') : Mirrors o Fine memory gone t₁ log t₁' m where
  fine := h.fine
  known x hx := Nat.lt_of_lt_of_le (h.known x hx) hbegins.size_le
  pruned := hpruned
  replayed T hT hbegins' := h.replayed T hT (hbegins.trans hbegins')

/-- The observer is told of a node. -/
theorem Mirrors.event (hlocal : o.Local Fine) (h : Mirrors o Fine memory gone t log t' m)
    (hl : t.Linked) (hid : id.index < t.size) (kind : EventKind) (content : Option Content) :
    ∃ gone', Mirrors o Fine memory gone' t (log ++ [⟨⟨kind, id⟩, content⟩]) (o ⟨kind, id⟩ (t', m)).1
      (o ⟨kind, id⟩ (t', m)).2 := by
  have hl' := h.pruned.linked hl
  obtain ⟨out, m', hm', hact, -⟩ := hlocal ⟨kind, id⟩ t' t' m h.fine ⟨rfl, fun _ _ => rfl⟩
  refine ⟨if out then id :: gone else gone, ?_, ?_, ?_, fun T hT hbegins => ?_⟩
  · rw [hact]
    exact hm'
  · intro x hx
    cases out with
    | false => exact h.known x hx
    | true =>
      rcases List.mem_cons.mp hx with rfl | hx
      · exact hid
      · exact h.known x hx
  · rw [hact]
    exact h.pruned.cut hl id out
  · obtain ⟨u, hreplay, hpruned⟩ := h.replayed T hT hbegins
    have hbegins' := hbegins.pruned h.pruned hpruned
    have hid' : id.index < t'.size := by
      rw [h.pruned.size]
      exact hid
    have houtlook := hbegins'.sameOutlook hl' (hpruned.linked hT) hid'
    obtain ⟨out', m'', -, hact', hact''⟩ := hlocal ⟨kind, id⟩ t' u m h.fine houtlook
    rw [hact, Prod.mk.injEq] at hact'
    obtain ⟨hcut, rfl⟩ := hact'
    refine ⟨u.cut id out, ?_, hpruned.cut hT id out⟩
    rw [hbegins'.cut_eq hid' hcut, hact, replay_concat, hreplay]
    exact hact''

end Mirrors

/-! ## Growing alike -/

namespace Growth

section Growing

variable {o : Observer ω} {Fine : ω → Prop} {memory m : ω} {gone : List NodeId} {t t' : Tree}
  {log : List Notice} {os : List OpenElement}

theorem Mirrors.text (h : Mirrors o Fine memory gone t log t' m) (hstanding : Standing os t)
    (s : String) :
    Mirrors o Fine memory gone ((t.create (.text s)).2.attach (top os) ⟨t.size⟩) log
      ((t'.create (.text s)).2.attach (top os) ⟨t.size⟩) m := by
  refine h.grow ?_ (hstanding.pruned_attach h.known h.pruned (by simp))
  refine (Tree.begins_create t (.text s)).attach (top os) (Nat.le_refl _) ?_
  rw [Tree.size_create]
  exact Nat.lt_succ_self _

/-- A new element and its shelter. -/
theorem Mirrors.sprouted {g : Growth (Unit × List Notice)} {g' : Growth ω}
    (h : Mirrors o Fine memory gone g.tree log g'.tree m) (hstack : g'.stack = g.stack)
    (hstanding : Standing g.stack g.tree) (e : Element) :
    Mirrors o Fine memory gone (g.sprouted e) log (g'.sprouted e) m := by
  refine h.grow ?_ (pruned_sprouted h.pruned h.known hstack hstanding e)
  have hshelter := Tree.begins_shelter (g.tree.create (.element e)).2 g.innermost e.tag
  have hsize := hshelter.size_le
  rw [Tree.size_create] at hsize
  exact ((Tree.begins_create g.tree (.element e)).trans hshelter).attach _ (Nat.le_refl _) hsize

theorem lockstep_mirrors (hlocal : o.Local Fine) (memory : ω) :
    Lockstep o fun t log t' m => ∃ gone, Mirrors o Fine memory gone t log t' m where
  thinned := by
    rintro t log t' m ⟨gone, h⟩
    exact h.pruned.thinned h.known
  tell := by
    rintro t log t' m kind id ⟨gone, h⟩ hl hid
    exact h.event hlocal hl hid kind _
  text := by
    rintro t log t' m os s ⟨gone, h⟩ hstanding
    exact ⟨gone, Mirrors.text h hstanding s⟩
  element := by
    rintro g g' e ⟨gone, h⟩ hstack hstanding
    exact ⟨gone, Mirrors.sprouted h hstack hstanding e⟩

/-- A root that the document lacks it lacks also with nodes taken out, and both are given one; where
it has one, that may have been taken out. -/
theorem Mirrors.rooted {gone : List NodeId} {t t' : Tree} {log : List Notice} {m : ω}
    (h : Mirrors o Fine memory gone t log t' m) (hstanding : Standing [] t) :
    ∃ u, replay o log (t.rooted, memory) = (u, m) ∧ Tree.Pruned gone t.rooted u ∧
      t'.rooted = u.rooted := by
  have hl := hstanding.linked
  by_cases hsome : t.documentElement?.isSome = true
  · rw [Tree.rooted, if_pos hsome]
    obtain ⟨u, hreplay, hpruned⟩ := h.replayed t hl (.refl t)
    exact ⟨u, hreplay, hpruned, by rw [h.pruned.unique hpruned]⟩
  · have hsome' : ¬ t'.documentElement?.isSome = true :=
      fun h' => hsome (h.pruned.documentElement?_isSome h')
    have hroot := Tree.lt_size_of_content? hstanding.root
    have hwrapped : Tree.Pruned gone t.rooted t'.rooted := by
      rw [Tree.rooted, if_neg hsome, Tree.rooted, if_neg hsome']
      exact (h.pruned.wrapper hl h.known hroot _).2
    have hrooted := documentElement?_rooted (hstanding.pruned h.pruned)
    obtain ⟨u, hreplay, hpruned⟩ := h.replayed t.rooted hstanding.rooted.linked (begins_rooted t)
    refine ⟨u, hreplay, hpruned, ?_⟩
    rw [hpruned.unique hwrapped, Tree.rooted.eq_1 t'.rooted, if_pos hrooted]

end Growing

end Growth

/-- **What local observers do while a document grows they could do afterwards.** The tree they leave
of an unmoved document is the tree of the document after a replay of its events, with a root of its
own if it has lost the one it had. -/
theorem parseWith_eq_replay {o : Observer ω} {Fine : ω → Prop} (hlocal : o.Local Fine) {memory : ω}
    (hm : Fine memory) {p p' : Parser} {input : String} {t : Tree} {log : List Notice}
    (hparse : p.parseWith unwatched.recorded ((), []) input = (.ok t, ((), log), p'))
    (hunmoved : Unmoved p'.issues) :
    ∃ u m gone, replay o log (t, memory) = (u, m) ∧ Tree.Pruned gone t u ∧ Fine m ∧
      p.parseWith o memory input = (.ok u.rooted, m, p') := by
  obtain ⟨u, u', m, hstanding, ⟨gone, hmirrors⟩, rfl, hwatched⟩ :=
    (lockstep_mirrors hlocal memory).parse ⟨[], mirrors_empty hm⟩ hparse hunmoved
  obtain ⟨v, hreplay, hpruned, hrooted⟩ := Mirrors.rooted hmirrors hstanding
  exact ⟨v, m, gone, hreplay, hpruned, hmirrors.fine, by rw [hwatched, hrooted]⟩

end Markup

end Hypertext
