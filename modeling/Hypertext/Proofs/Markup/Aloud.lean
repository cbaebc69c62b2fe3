/-
What is read aloud is what is read in silence, and the console has then been
warned of the issues, one after the other (`parseAloud_eq`).

Each act leads from a growth, and a console that has been warned of its issues,
to such a pair again (`voiced`); nothing is put down without a word, and nothing
is said that is not put down.
-/
import Hypertext.Markup.Aloud

namespace Hypertext.Markup.Aloud

open Automaton Growth

variable {ω α β : Type} {observer : Observer ω} {start : Console} {g : Growth ω}

/-- A growth, and the console as it is once it has been warned of all issues. -/
def voiced (start : Console) (g : Growth ω) : Growth ω × Console :=
  (g, start.report g.issues)

theorem run_bind (act : Act ω α) (next : α → Act ω β) (s : Growth ω × Console) :
    (act >>= next).run s = (next (act.run s).1).run (act.run s).2 := rfl

/-! ## Single acts -/

theorem run_growth : growth.run (voiced start g) = (g, voiced start g) := rfl

theorem run_silently {f : Growth ω → Growth ω} (h : (f g).issues = g.issues) :
    (silently f).run (voiced start g) = ((), voiced start (f g)) := by
  rw [voiced, voiced, h]
  rfl

theorem run_report (index : Nat) (oddity : Oddity) :
    (report index oddity).run (voiced start g) = ((), voiced start (g.report index oddity)) := by
  have hwarned : start.report (g.report index oddity).issues =
      (start.report g.issues).warnOf oddity := by
    rw [Console.report, Growth.report, List.foldl_append]
    rfl
  rw [voiced, voiced, hwarned]
  rfl

theorem run_create (content : Content) : (create content).run (voiced start g) =
    ((g.tree.create content).1, voiced start { g with tree := (g.tree.create content).2 }) := rfl

theorem run_append (parent child : NodeId) :
    (append parent child).run (voiced start g) = match g.tree.append parent child with
      | .ok tree => (.ok (), voiced start { g with tree })
      | .error e => (.error e, voiced start g) := by
  rw [append, run_bind, run_growth]
  cases g.tree.append parent child <;> rfl

theorem run_notify (kind : EventKind) (id : NodeId) :
    (silently (notify observer kind id)).run (voiced start g) =
      ((), voiced start (notify observer kind id g)) :=
  run_silently rfl

/-! ## Tokens -/

theorem run_takeText (index : Nat) (s : String) : (takeText observer index s).run (voiced start g) =
    ((), voiced start (g.takeText observer index s)) := by
  simp only [takeText, run_bind, run_create, run_growth, run_append, Growth.takeText]
  rw [show innermost { g with tree := (g.tree.create (.text s)).2 } = g.innermost from rfl]
  cases (g.tree.create (.text s)).2.append g.innermost (g.tree.create (.text s)).1 with
  | ok tree => exact run_notify _ _
  | error e => exact run_report _ _

theorem run_place (index : Nat) (id : NodeId) (tag : String) :
    (place index id tag).run (voiced start g) =
      ((g.place index id tag).2, voiced start (g.place index id tag).1) := by
  simp only [place, run_bind, run_growth, run_append, Growth.place]
  cases g.tree.append g.innermost id with
  | ok tree => rfl
  | error e =>
    cases e with
    | secondRoot =>
      dsimp only
      rw [run_bind, run_growth]
      cases g.tree.body?.or g.tree.documentElement? with
      | none => rfl
      | some refuge =>
        dsimp only
        rw [run_bind, run_report, run_bind, run_append]
        cases (g.report index (.movedIntoRoot tag)).tree.append refuge id with
        | ok tree => rfl
        | error e =>
          dsimp only
          rw [run_bind, run_report]
          rfl
    | misplaced | notAChild =>
      dsimp only
      rw [run_bind, run_report]
      rfl

theorem run_takeStart (index : Nat) (tag : String) (attributes : List Attribute) :
    (takeStart observer index tag attributes).run (voiced start g) =
      ((), voiced start (g.takeStart observer index tag attributes)) := by
  simp only [takeStart, run_bind, run_create, run_place, Growth.takeStart]
  generalize Growth.place _ _ _ _ = placed
  obtain ⟨g', found⟩ := placed
  cases found with
  | false => rfl
  | true =>
    simp only [if_true]
    rw [run_bind, run_silently rfl, run_bind, run_notify]
    split
    · exact run_notify _ _
    · exact run_silently rfl

theorem run_closeImplicitly (index : Nat) (o : OpenElement) :
    (closeImplicitly observer index o).run (voiced start g) =
      ((), voiced start (g.closeImplicitly observer index o)) := by
  simp only [closeImplicitly, Growth.closeImplicitly]
  split
  · rw [run_bind, run_growth, run_bind, run_report]
    exact run_notify _ _
  · rfl

theorem run_closeAll (index : Nat) (os : List OpenElement) :
    (closeAll observer index os).run (voiced start g) =
      ((), voiced start (os.foldl (Growth.closeImplicitly observer index) g)) := by
  induction os generalizing g with
  | nil => rfl
  | cons o os ih => rw [closeAll, run_bind, run_closeImplicitly, ih, List.foldl_cons]

theorem issues_announceEnd (g : Growth ω) (o : OpenElement) :
    (announceEnd observer g o).issues = g.issues := by
  simp only [announceEnd]
  split <;> rfl

theorem issues_announceAll (g : Growth ω) (os : List OpenElement) :
    (os.foldl (announceEnd observer) g).issues = g.issues := by
  induction os generalizing g with
  | nil => rfl
  | cons o os ih => rw [List.foldl_cons, ih, issues_announceEnd]

theorem run_takeEnd (index : Nat) (tag : String) : (takeEnd observer index tag).run (voiced start g) =
    ((), voiced start (g.takeEnd observer index tag)) := by
  simp only [takeEnd, Growth.takeEnd]
  split
  · rfl
  · rw [run_bind, run_growth]
    dsimp only
    cases g.stack.dropWhile fun o => g.tree.tag? o.id ≠ some tag with
    | nil => exact run_report _ _
    | cons closed rest =>
      dsimp only
      rw [run_bind, run_silently rfl, run_bind, run_closeAll]
      exact run_silently (issues_announceEnd _ closed)

theorem run_take (token : Nat × Token) : (take observer token).run (voiced start g) =
    ((), voiced start (g.take observer token)) := by
  obtain ⟨index, token⟩ := token
  cases token with
  | text s => exact run_takeText index s
  | startTag tag attributes => exact run_takeStart index tag attributes
  | endTag tag => exact run_takeEnd index tag

theorem run_takeAll (tokens : List (Nat × Token)) : (takeAll observer tokens).run (voiced start g) =
    ((), voiced start (tokens.foldl (Growth.take observer) g)) := by
  induction tokens generalizing g with
  | nil => rfl
  | cons token tokens ih => rw [takeAll, run_bind, run_take, ih, List.foldl_cons]

theorem run_finish (index : Nat) : (finish observer index).run (voiced start g) =
    ((), voiced start (g.finish observer index)) := by
  simp only [finish, Growth.finish]
  rw [run_bind, run_silently (issues_announceAll _ g.stack), run_bind, run_growth]
  dsimp only
  generalize g.stack.foldl (announceEnd observer) { g with stack := [] } = closed
  split
  · rfl
  · simp only [run_bind, run_create, run_append]
    cases (closed.tree.create (.element (.ofTag "HTML"))).2.append Tree.root
      (closed.tree.create (.element (.ofTag "HTML"))).1 with
    | ok tree => rfl
    | error e => exact run_report _ _

/-! ## Documents -/

/-- The growth from the tokens of a reading, brought to an end where the document was read to its. -/
def grown (observer : Observer ω) (length : Nat) (reading : Reading) (g : Growth ω) : Growth ω :=
  let g := reading.tokens.foldl (Growth.take observer) g
  if reading.refused.isSome then g else g.finish observer length

theorem run_readFrom (p : Position) (index : Nat) (cs : List Char) :
    (readFrom observer p index cs).run (voiced start g) =
      let reading := Markup.readFrom p index cs
      ((reading.refused, reading.stopped),
        voiced start (grown observer (index + cs.length) reading g)) := by
  induction cs generalizing p index g with
  | nil =>
    rw [readFrom, run_bind, run_takeAll, run_bind, run_finish]
    simp only [Markup.readFrom, grown, List.length_nil, Nat.add_zero, Option.isSome_none,
      Bool.false_eq_true, if_false]
    rfl
  | cons c cs ih =>
    simp only [readFrom, Markup.readFrom]
    cases (tokenizer.step p c).fault with
    | some fault => rfl
    | none =>
      dsimp only
      rw [run_bind, run_takeAll, ih]
      simp only [grown, List.foldl_append, List.length_cons, Nat.add_assoc, Nat.add_comm 1]

end Aloud

/-- **What is read aloud is what is read**, and warnings are given of just the issues, in their
order, whether the document is read to its end or breaks off. -/
theorem Parser.parseAloud_eq {ω : Type} (p : Parser) (observer : Observer ω) (memory : ω)
    (console : Console) (input : String) :
    p.parseAloud observer memory console input =
      let (result, memory, p) := p.parseWith observer memory input
      (result, memory, p, console.report p.issues) := by
  have hrun : (Aloud.readFrom observer p.reset.position 0 input.toList).run
      (Aloud.voiced console { memory }) = _ := Aloud.run_readFrom _ _ _
  rw [Aloud.voiced, Console.report, List.foldl_nil] at hrun
  simp only [Parser.parseAloud, hrun, Parser.parseWith, Reading.failure?, Aloud.voiced, Aloud.grown,
    Nat.zero_add, String.length_toList]
  obtain ⟨tokens, refused, stopped⟩ := Markup.readFrom p.reset.position 0 input.toList
  cases refused with
  | none => simp only [Option.isSome_none, Bool.false_eq_true, if_false, Option.map_none]
  | some refused => simp only [Option.isSome_some, if_true, Option.map_some]

end Hypertext.Markup
