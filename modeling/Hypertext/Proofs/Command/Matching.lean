/-
What a document is searched for. The elements are asked one after the other
whether they match. If each has an answer, those that say yes are written, in
the order in which they are listed; the first that has none is the end of the
command, and no match is written (`run_select`).
-/
import Mathlib.Data.List.Basic
import Hypertext.Command.Run
import Hypertext.Proofs.Console.Warnings
import Hypertext.Proofs.Markup.Tidy
import Hypertext.Proofs.Tree.Elements

namespace Hypertext.Command

open Markup

/-! ## Asking one after the other -/

section Asking

variable {α ε : Type} [DecidableEq ε] {f : α → Except ε Bool} {l : List α}

omit [DecidableEq ε] in
/-- The answer for one settles whether it is kept; without one the search ends. -/
theorem filterAuxM_cons (f : α → Except ε Bool) (a : α) (l found : List α) :
    List.filterAuxM f (a :: l) found = match f a with
      | .ok b => List.filterAuxM f l (if b then a :: found else found)
      | .error e => .error e := by
  rw [List.filterAuxM]
  cases f a with
  | error e => rfl
  | ok b => cases b <;> rfl

/-- While there are answers, what says yes is collected. -/
theorem filterAuxM_append (later : List α) (h : ∀ a ∈ l, ∃ b, f a = .ok b) (found : List α) :
    List.filterAuxM f (l ++ later) found =
      List.filterAuxM f later ((l.filter fun a => f a = .ok true).reverse ++ found) := by
  induction l generalizing found with
  | nil => rfl
  | cons a l ih =>
    obtain ⟨b, hb⟩ := h a List.mem_cons_self
    rw [List.cons_append, filterAuxM_cons, hb]
    simp only
    rw [ih fun x hx => h x (List.mem_cons_of_mem a hx)]
    cases b <;> simp [hb]

theorem filterM_eq_ok (h : ∀ a ∈ l, ∃ b, f a = .ok b) :
    l.filterM f = .ok (l.filter fun a => f a = .ok true) := by
  have hall := filterAuxM_append [] h []
  rw [List.append_nil, List.append_nil] at hall
  rw [List.filterM, hall]
  simp [List.filterAuxM, pure, Except.pure, bind, Except.bind]

theorem filterM_eq_error {before after : List α} {a : α} {e : ε}
    (h : ∀ x ∈ before, ∃ b, f x = .ok b) (ha : f a = .error e) :
    (before ++ a :: after).filterM f = .error e := by
  rw [List.filterM, filterAuxM_append _ h, filterAuxM_cons, ha]
  rfl

omit [DecidableEq ε] in
/-- If there is one without an answer, there is a first one. -/
theorem exists_first_error (h : ∃ a ∈ l, ∃ e, f a = .error e) : ∃ before a after e,
    l = before ++ a :: after ∧ (∀ x ∈ before, ∃ b, f x = .ok b) ∧ f a = .error e := by
  induction l with
  | nil =>
    obtain ⟨a, ha, -⟩ := h
    cases ha
  | cons a l ih =>
    cases ha : f a with
    | error e => exact ⟨[], a, l, e, rfl, by simp, ha⟩
    | ok b =>
      obtain ⟨x, hx, e, he⟩ := h
      have hxl : x ∈ l := (List.mem_cons.mp hx).resolve_left fun heq => by
        rw [heq, ha] at he
        cases he
      obtain ⟨before, y, after, e, rfl, hbefore, hy⟩ := ih ⟨x, hxl, e, he⟩
      refine ⟨a :: before, y, after, e, rfl, fun z hz => ?_, hy⟩
      rcases List.mem_cons.mp hz with rfl | hz
      · exact ⟨b, ha⟩
      · exact hbefore z hz

end Asking

/-! ## Searching a document -/

section Searching

variable {t : Tree} {s : Selector}

theorem matched_eq_ok (h : ∀ id ∈ t.elements, ∃ b, s.matches t id = .ok b) :
    matched t s = .ok (t.elements.filter fun id => s.matches t id = .ok true) :=
  filterM_eq_ok h

theorem matched_eq_error {before after : List NodeId} {id : NodeId} {u : Selector.Unsupported}
    (hsplit : t.elements = before ++ id :: after)
    (hbefore : ∀ x ∈ before, ∃ b, s.matches t x = .ok b) (hu : s.matches t id = .error u) :
    matched t s = .error u := by
  rw [matched, hsplit, filterM_eq_error hbefore hu]

/-- What was odd about a document. -/
def issuesOf (input : String) : List Issue :=
  (({} : Parser).parse input).2.issues

/-- A search in terms of the document, and of what was odd about it. -/
theorem runSelect_eq {input : String} (s : Selector) (hparse : parse input = .ok t) :
    runSelect s input = match matched t s with
      | .error u => (({} : Console).report (issuesOf input), some ⟨u.message, []⟩)
      | .ok found => ((({} : Console).report (issuesOf input)).print (matchLines t s found), none) := by
  rcases hoper : ({} : Parser).parseWith (fun _ s => s) () input with ⟨result, memory, p⟩
  obtain rfl : result = .ok t := by simpa only [parse, Parser.parse, hoper] using hparse
  have hconsole : ({} : Console).parse {} input = (.ok t, p, ({} : Console).report p.issues) := by
    rw [Console.parse, Parser.parseAloud_eq, hoper]
  have hissues : issuesOf input = p.issues := by rw [issuesOf, Parser.parse, hoper]
  cases hmatched : matched t s with
  | error u => simp only [runSelect, hconsole, hissues, hmatched]
  | ok found => simp only [runSelect, hconsole, hissues, hmatched]

/-- Matches as they are printed: how many there are, in bold, and then the markup of each. -/
theorem matchLines_eq (t : Tree) (s : Selector) (found : List NodeId) : matchLines t s found =
    "\x1b[1m=== " ++ toString found.length ++ " match(es) for " ++ s.source ++ " ===\x1b[0m\n" ++
      String.join (found.map fun id => t.outer id ++ "\n") := by
  have hbefore : "\x1b[1m=== " = "\x1b[1m" ++ "=== " := by decide +kernel
  have hafter : " ===\x1b[0m\n" = " ===" ++ ("\x1b[0m" ++ "\n") := by decide +kernel
  rw [hbefore, hafter]
  simp only [matchLines, bold, String.append_assoc]

/-- **A document is searched for every match, in document order.** Its elements are listed: those that
can be reached from the document and nothing else, each once, and each before those below it and before
those below later siblings. If all have an answer, the number of those that say yes is written, and
then the markup of each of them in this order, on a line of its own. Otherwise no match is written, and
the report is of the first that has none. -/
theorem run_select (files : Files) (source : Source) (s : Selector) {input : String}
    (hread : source.read files = .ok input) (hparse : parse input = .ok t) :
    t.elements.Nodup ∧
    (∀ id, id ∈ t.elements ↔ t.Reaches Tree.root id ∧ t.isElement id = true) ∧
    (∀ a ∈ t.elements, ∀ b ∈ t.elements, [a, b].Sublist t.elements ↔ t.Precedes a b) ∧
    ∃ warned : Console, warned.out = "" ∧ warned = ({} : Console).report (issuesOf input) ∧
      ((∀ id ∈ t.elements, ∃ b, s.matches t id = .ok b) →
        let found := t.elements.filter fun id => s.matches t id = .ok true
        run files (.select s source) =
          ({ warned with
            out :=
              "\x1b[1m=== " ++ toString found.length ++ " match(es) for " ++ s.source ++
                " ===\x1b[0m\n" ++ String.join (found.map fun id => t.outer id ++ "\n") }, none)) ∧
      ((∃ id ∈ t.elements, ∃ u, s.matches t id = .error u) →
        ∃ before id after u, t.elements = before ++ id :: after ∧
          (∀ x ∈ before, ∃ b, s.matches t x = .ok b) ∧ s.matches t id = .error u ∧
          run files (.select s source) =
            (warned, some ⟨"attribute operator " ++ u.comparison.symbol ++ " in [" ++ u.name ++
              u.comparison.symbol ++ "...] is not supported", []⟩)) := by
  obtain ⟨htidy, hhoused, -⟩ := tidy_of_parse (Prod.ext hparse rfl : Parser.parse {} input = (.ok t, _))
  have hl := htidy.linked
  have hrun : run files (.select s source) = runSelect s input := by
    simp only [run, Command.source, hread]
  have hout := (Console.report_spec (c := {}) rfl (issuesOf input)).1
  refine ⟨hl.nodup_elements hhoused.document, fun _ => hl.mem_elements hhoused.document,
    fun _ ha _ hb => hl.sublist_elements hhoused.document ha hb, _, hout, rfl, fun hall => ?_,
    fun hsome => ?_⟩
  · rw [hrun, runSelect_eq s hparse, matched_eq_ok hall]
    simp only [Console.print, hout, String.empty_append, matchLines_eq]
  · obtain ⟨before, id, after, u, hsplit, hbefore, hu⟩ := exists_first_error hsome
    refine ⟨before, id, after, u, hsplit, hbefore, hu, ?_⟩
    rw [hrun, runSelect_eq s hparse, matched_eq_error hsplit hbefore hu]
    rfl

/-- The elements around what the source has were made after it, and are listed before it. The second
selector has no answer for the third element, so that not even the number of matches is written. -/
theorem run_select_wrapped :
    let input := "<p a=x>a<b>c"
    let every : Selector := ⟨[.universal], [], "*"⟩
    let words : Selector := ⟨[.hasAttribute (.compare "a" .includesWord "x")], [], "[a~=x]"⟩
    ∃ t, parse input = .ok t ∧ t.elements = [⟨2⟩, ⟨3⟩, ⟨1⟩, ⟨5⟩] ∧
      run .error (.select every (.html input)) =
        ({ out :=
            "\x1b[1m=== 4 match(es) for * ===\x1b[0m\n" ++
            "<html><body><p a=\"x\">a<b>c</b></p></body></html>\n" ++
            "<body><p a=\"x\">a<b>c</b></p></body>\n" ++
            "<p a=\"x\">a<b>c</b></p>\n" ++
            "<b>c</b>\n" }, none) ∧
      run .error (.select words (.html input)) =
        ({}, some ⟨"attribute operator ~= in [a~=...] is not supported", []⟩) := by
  intro input every words
  have hfound : (parse input).toOption.map (fun t => decide (t.elements = [⟨2⟩, ⟨3⟩, ⟨1⟩, ⟨5⟩] ∧
      t.elements.map t.outer = ["<html><body><p a=\"x\">a<b>c</b></p></body></html>",
        "<body><p a=\"x\">a<b>c</b></p></body>", "<p a=\"x\">a<b>c</b></p>", "<b>c</b>"] ∧
      (∀ id ∈ t.elements, every.matches t id = .ok true) ∧
      words.matches t ⟨1⟩ = .error ⟨.includesWord, "a"⟩ ∧
      ∀ id ∈ t.elements, id ≠ ⟨1⟩ → words.matches t id = .ok false)) = some true := by
    decide +kernel
  have hissues : issuesOf input = [] := by decide +kernel
  obtain ⟨t, hparse, hfound⟩ : ∃ t, parse input = .ok t ∧ _ := by
    rcases hparse : parse input with e | t
    · rw [hparse] at hfound
      cases hfound
    · rw [hparse] at hfound
      exact ⟨t, rfl, of_decide_eq_true (Option.some.inj hfound)⟩
  obtain ⟨helements, houter, hevery, hfails, hother⟩ := hfound
  obtain ⟨-, -, -, warned, -, hwarned, hall, -⟩ := run_select .error (.html input) every rfl hparse
  obtain ⟨-, -, -, warned', -, hwarned', -, hsome⟩ := run_select .error (.html input) words rfl hparse
  rw [hissues] at hwarned hwarned'
  refine ⟨t, hparse, helements, ?_, ?_⟩
  · have hkept : (t.elements.filter fun id => every.matches t id = .ok true) = t.elements :=
      List.filter_eq_self.mpr fun id hid => decide_eq_true (hevery id hid)
    have hmarkup : t.elements.map (fun id => t.outer id ++ "\n") =
        (t.elements.map t.outer).map (· ++ "\n") := by
      rw [List.map_map]
      rfl
    have hrun := hall fun id hid => ⟨true, hevery id hid⟩
    dsimp only at hrun
    rw [hkept, hmarkup, houter, helements, hwarned] at hrun
    exact hrun
  · obtain ⟨before, id, after, u, hsplit, -, hu, hrun⟩ := hsome ⟨⟨1⟩, by simp [helements], _, hfails⟩
    have hid : id = ⟨1⟩ := by
      by_contra hne
      cases (hother id (by simp [hsplit]) hne).symm.trans hu
    rw [hid, hfails] at hu
    cases hu
    rw [hrun, hwarned']
    rfl

end Searching

end Hypertext.Command
