/-
A pipeline without processors. It gives the markup of the document element, and
so leaves out the texts to both sides of it: its output is the markup of the
whole document just where there are none (`process_bare`).
-/
import Hypertext.Pipeline.Basic
import Hypertext.Proofs.Markup.Tidy

namespace Hypertext

open Markup

namespace Tree

variable {t : Tree}

/-- Below the document there is one element, and texts before and behind it. -/
theorem Housed.exists_sides (h : t.Housed) (hsome : t.documentElement?.isSome = true) :
    ∃ before html after, t.children root = before ++ html :: after ∧
      t.documentElement? = some html ∧ ∀ id ∈ before ++ after, ∃ s, t.text? id = some s := by
  obtain ⟨html, hhtml, -⟩ := h.exists_root hsome
  obtain ⟨before, after, hchildren, hbefore, helement, hafter⟩ := List.filter_eq_cons_iff.mp hhtml
  refine ⟨before, html, after, hchildren, ?_, fun id hid => ?_⟩
  · rw [documentElement?, hchildren, List.find?_append, List.find?_eq_none.mpr hbefore,
      Option.none_or, List.find?_cons_of_pos helement]
  · have hnot : t.isElement id = false := by
      rcases List.mem_append.mp hid with hid | hid
      · exact Bool.eq_false_iff.mpr (hbefore id hid)
      · exact Bool.eq_false_iff.mpr (List.filter_eq_nil_iff.mp hafter id hid)
    have hmem : id ∈ t.children root := by
      rw [hchildren]
      rcases List.mem_append.mp hid with hid | hid <;> simp [hid]
    have hparent := (h.linked.mem_children root id).mp hmem
    obtain ⟨c, hc⟩ := exists_content? (lt_size_of_parent? hparent)
    cases c with
    | document => cases (h.linked.document_top id hc).symm.trans hparent
    | text s => exact ⟨s, text?_eq_some.mpr hc⟩
    | element e =>
      rw [isElement, element?_eq_some.mpr hc] at hnot
      cases hnot

end Tree

namespace Pipeline

variable {σ ω : Type}

/-- Without processors nothing is done and nothing remembered. -/
theorem mirrors_observer (memory : ω) :
    unwatched.Mirrors (fun _ => ({ stages := [], memory } : Run σ ω)) observer :=
  fun _ _ _ => rfl

/-- The tree is that of a parser nobody watches. -/
theorem treeOf_bare {p : Pipeline σ ω} (hp : p.stages = []) {q q' : Parser} {input : String}
    {t : Tree} (hparse : q.parse input = (.ok t, q')) (memory : ω) :
    (p.treeOf memory input).1 = .ok t := by
  have hmirrored := parseWith_mirrored (mirrors_observer (σ := σ) memory) p.parser () input
  have hresult : (p.parser.parseWith unwatched () input).1 = .ok t := congrArg Prod.fst hparse
  rw [hresult] at hmirrored
  simp only [treeOf, hp, resetAll, hmirrored]

theorem eq_append_append_iff {s before after : String} :
    s = before ++ s ++ after ↔ before = "" ∧ after = "" := by
  constructor
  · intro h
    have hlength := congrArg String.length h
    rw [String.length_append, String.length_append] at hlength
    rw [← String.length_eq_zero_iff, ← String.length_eq_zero_iff]
    omega
  · rintro ⟨rfl, rfl⟩
    simp

/-- No text of a parsed document is empty. -/
theorem join_outer_eq_empty_iff {t : Tree} (h : t.Tidy) {ids : List NodeId}
    (hids : ∀ id ∈ ids, ∃ s, t.text? id = some s) : String.join (ids.map t.outer) = "" ↔ ids = [] := by
  cases ids with
  | nil => simp
  | cons id ids =>
    obtain ⟨s, hs⟩ := hids id List.mem_cons_self
    have hne := h.text id s hs
    rw [List.map_cons, String.join_cons, h.linked.outer_of_text (Tree.text?_eq_some.mp hs)]
    simp [hne]

/-- **The output of a pipeline without processors** is the markup of the document element, which is
that of the document without the texts before and behind it. The two are the same just where there
are no such texts. -/
theorem process_bare {p : Pipeline σ ω} (hp : p.stages = []) {q q' : Parser} {input : String}
    {t : Tree} (hparse : q.parse input = (.ok t, q')) (memory : ω) :
    ∃ before html after, t.children Tree.root = before ++ html :: after ∧
      t.documentElement? = some html ∧ (∀ id ∈ before ++ after, ∃ s, t.text? id = some s) ∧
      (p.process memory input).1 = .ok (t.outer html) ∧
      t.outer Tree.root =
        String.join (before.map t.outer) ++ t.outer html ++ String.join (after.map t.outer) ∧
      ((p.process memory input).1 = .ok (t.outer Tree.root) ↔ before = [] ∧ after = []) := by
  obtain ⟨htidy, hhoused, hsome⟩ := tidy_of_parse hparse
  obtain ⟨before, html, after, hchildren, hhtml, htexts⟩ := hhoused.exists_sides hsome
  have hprocess : (p.process memory input).1 = .ok (t.outer html) := by
    simp only [process, treeOf_bare hp hparse memory, Except.map, rendered, hhtml]
    rfl
  have houter : t.outer Tree.root =
      String.join (before.map t.outer) ++ t.outer html ++ String.join (after.map t.outer) := by
    rw [htidy.linked.outer_of_document hhoused.document, hchildren]
    simp [String.append_assoc]
  refine ⟨before, html, after, hchildren, hhtml, htexts, hprocess, houter, ?_⟩
  rw [hprocess, Except.ok.injEq, houter, eq_append_append_iff,
    join_outer_eq_empty_iff htidy fun id hid => htexts id (List.mem_append_left _ hid),
    join_outer_eq_empty_iff htidy fun id hid => htexts id (List.mem_append_right _ hid)]

/-- A text behind the root is left out, and one inside it is not. -/
theorem process_bare_behind : ∃ t q', ({} : Parser).parse "<p>a</html>b" = (.ok t, q') ∧
    ∃ before html after, t.children Tree.root = before ++ html :: after ∧
      t.documentElement? = some html ∧ (∀ id ∈ before ++ after, ∃ s, t.text? id = some s) ∧
      (({} : Pipeline Unit Unit).process () "<p>a</html>b").1 = .ok (t.outer html) ∧
      t.outer Tree.root =
        String.join (before.map t.outer) ++ t.outer html ++ String.join (after.map t.outer) ∧
      ((({} : Pipeline Unit Unit).process () "<p>a</html>b").1 = .ok (t.outer Tree.root) ↔
        before = [] ∧ after = []) := by
  have hfound : (({} : Parser).parse "<p>a</html>b").1.toOption.map (fun _ => ()) = some () := by
    decide +kernel
  obtain ⟨t, q', hparse, -⟩ := exists_tree hfound
  exact ⟨t, q', hparse, process_bare rfl hparse ()⟩

/-- The markup of the document, without loss, is not what comes out. -/
theorem process_bare_lossy : ¬ ∀ input t q', ({} : Parser).parse input = (.ok t, q') →
    (({} : Pipeline Unit Unit).process () input).1 = .ok (t.outer Tree.root) := by
  intro h
  have hfound : (({} : Parser).parse "hello").1.toOption.map (·.outer Tree.root) =
      some "hello<html></html>" := by
    decide +kernel
  have hprocess : (({} : Pipeline Unit Unit).process () "hello").1 = .ok "<html></html>" := by
    decide +kernel
  obtain ⟨t, q', hparse, houter⟩ := exists_tree hfound
  have hsame := h _ t q' hparse
  rw [hprocess, houter, Except.ok.injEq] at hsame
  exact absurd hsame (by decide)

end Pipeline

end Hypertext
