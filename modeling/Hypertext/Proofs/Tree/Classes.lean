/-
The class words of an element: distinct, and read back as they were written,
if they are words at all (`classes_setClasses`).

Words are added behind those that are there, and taken out from among them; the
other attributes never change. A word that gives way to another leaves the
others where they were, and the other in its place. A word that gives way to
itself is the one that is already there, and only goes.
-/
import Hypertext.Proofs.Text.Words
import Hypertext.Proofs.Tree.Attributes
import Hypertext.Tree.Classes

namespace Hypertext

namespace Attributes

/-- The class words are now `ws`, written with single spaces between them; nothing else has changed,
and a `class` attribute that there was not goes last. -/
structure Written (as as' : Attributes) (ws : List String) : Prop where
  read : as'.classes = ws
  value : as'.get? "class" = some (" ".intercalate ws)
  others : as'.entries.filter (·.name ≠ "class") = as.entries.filter (·.name ≠ "class")
  place : as'.entries.map (·.name) =
    if as.contains "class" then as.entries.map (·.name) else as.entries.map (·.name) ++ ["class"]

/-- In a list of words `new` has taken the place of `old`. -/
structure Replaced (old new : String) (ws ws' : List String) : Prop where
  arrived : new ∈ ws'
  gone : old ∈ ws' → old = new
  once : ∀ w ∈ ws, w ≠ old → w ≠ new → ws'.count w = 1
  order : ws'.filter (fun w => w ≠ old ∧ w ≠ new) = ws.filter (fun w => w ≠ old ∧ w ≠ new)

variable {as as' : Attributes} {ws ts : List String} {old new w : String}

/-! ## Reading and writing -/

theorem nodup_classes (as : Attributes) : as.classes.Nodup :=
  nodup_eraseDups _

theorem isWord_of_mem_classes (h : w ∈ as.classes) : IsWord w.toList := by
  obtain ⟨v, hv, rfl⟩ := List.mem_map.mp (List.mem_eraseDups.mp h)
  rw [String.toList_ofList]
  exact isWord_of_mem_words hv

theorem get?_setClasses (as : Attributes) (ws : List String) :
    (as.setClasses ws).get? "class" = some (" ".intercalate ws) := by
  rw [get?, setClasses, set, find?_insert, if_pos rfl, Option.map_some]

/-- Distinct words that are written are read back. -/
theorem classes_setClasses (hws : ∀ w ∈ ws, IsWord w.toList) (hnodup : ws.Nodup) :
    (as.setClasses ws).classes = ws := by
  have hwords : words (" ".intercalate ws).toList = ws.map String.toList := by
    rw [String.toList_intercalate]
    exact words_intercalate (by simpa using hws)
  have hback : (String.ofList ∘ String.toList) = id := funext fun _ => String.ofList_toList
  rw [classes, get?_setClasses, Option.getD_some, classWords, hwords, List.map_map, hback, List.map_id,
    eraseDups_of_nodup hnodup]

theorem setClasses_setClasses (as : Attributes) (ws : List String) :
    (as.setClasses ws).setClasses ws = as.setClasses ws :=
  insert_insert as _

theorem written_setClasses (hws : ∀ w ∈ ws, IsWord w.toList) (hnodup : ws.Nodup) :
    Written as (as.setClasses ws) ws where
  read := classes_setClasses hws hnodup
  value := get?_setClasses as ws
  others := filter_put ⟨"class", _⟩ as.entries
  place := by
    rw [setClasses, set, insert, map_name_put]
    simp only [contains, isSome_find?_iff]

/-! ## Adding and removing -/

/-- What is appended unless it is there already: what was not there, each once. -/
theorem foldl_unless_mem {α : Type} [DecidableEq α] (l known : List α) :
    l.foldl (fun known a => if a ∈ known then known else known ++ [a]) known =
      known ++ (l.filter (· ∉ known)).eraseDups := by
  induction l using List.reverseRecOn with
  | nil => simp
  | append_singleton l a ih =>
    rw [List.foldl_concat, ih]
    by_cases ha : a ∈ known
    · simp [ha]
    · have hone : [a].filter (· ∉ known) = [a] := by simp [ha]
      rw [List.filter_append, hone, eraseDups_concat]
      by_cases hl : a ∈ l <;> simp [ha, hl]

theorem written_addClasses (as : Attributes) (hts : ∀ w ∈ ts, IsWord w.toList) :
    Written as (as.addClasses ts) (as.classes ++ (ts.filter (· ∉ as.classes)).eraseDups) := by
  rw [addClasses, foldl_unless_mem]
  refine written_setClasses (fun w hw => ?_) ?_
  · rcases List.mem_append.mp hw with hw | hw
    · exact isWord_of_mem_classes hw
    · exact hts w (List.mem_filter.mp (List.mem_eraseDups.mp hw)).1
  · refine List.Nodup.append as.nodup_classes (nodup_eraseDups _) fun w hold hnew => ?_
    have hnot := (List.mem_filter.mp (List.mem_eraseDups.mp hnew)).2
    exact of_decide_eq_true hnot hold

theorem written_removeClasses (as : Attributes) (ts : List String) :
    Written as (as.removeClasses ts) (as.classes.filter (· ∉ ts)) :=
  written_setClasses (fun _ hw => isWord_of_mem_classes (List.mem_filter.mp hw).1)
    (as.nodup_classes.filter _)

/-- **Adding and removing class words.** The words that are added come behind those that were there,
unless they were there, each once; those that are removed are gone, and the others keep their order.
What is then written is what is read again. Adding the same words twice is adding them once, and
removing words that were all new is taking them back. -/
theorem classes_added_removed (as : Attributes) (hts : ∀ w ∈ ts, IsWord w.toList) :
    Written as (as.addClasses ts) (as.classes ++ (ts.filter (· ∉ as.classes)).eraseDups) ∧
    Written as (as.removeClasses ts) (as.classes.filter (· ∉ ts)) ∧
    (as.addClasses ts).addClasses ts = as.addClasses ts ∧
    (ts.Disjoint as.classes → ((as.addClasses ts).removeClasses ts).classes = as.classes) := by
  have hadded := written_addClasses as hts
  refine ⟨hadded, written_removeClasses as ts, ?_, fun hdisjoint => ?_⟩
  · have hnone : ts.filter (· ∉ (as.addClasses ts).classes) = [] := by
      refine List.filter_eq_nil_iff.mpr fun w hw => ?_
      rw [hadded.read]
      by_cases hold : w ∈ as.classes <;> simp [hold, hw]
    have hsame : (as.addClasses ts).addClasses ts =
        (as.addClasses ts).setClasses (as.addClasses ts).classes := by
      rw [addClasses, foldl_unless_mem, hnone, List.eraseDups_nil, List.append_nil]
    rw [hsame, hadded.read, addClasses, foldl_unless_mem, setClasses_setClasses]
  · have hold : as.classes.filter (· ∉ ts) = as.classes :=
      List.filter_eq_self.mpr fun w hw => by simpa using fun hnew => hdisjoint hnew hw
    have hnew : (ts.filter (· ∉ as.classes)).eraseDups.filter (· ∉ ts) = [] :=
      List.filter_eq_nil_iff.mpr fun w hw => by
        simpa using (List.mem_filter.mp (List.mem_eraseDups.mp hw)).1
    rw [(written_removeClasses _ ts).read, hadded.read, List.filter_append, hold, hnew,
      List.append_nil]

/-- Among others stands a `class` with a word that is there twice. -/
theorem classes_added_removed_twice :
    let as := ofList [⟨"id", "x"⟩, ⟨"class", " a\tb  a"⟩, ⟨"lang", "en"⟩]
    let ts := ["c", "d", "c"]
    (∀ w ∈ ts, IsWord w.toList) ∧ ts.Disjoint as.classes ∧
      Written as (as.addClasses ts) ["a", "b", "c", "d"] ∧
      Written as (as.removeClasses ts) ["a", "b"] ∧
      (as.addClasses ts).addClasses ts = as.addClasses ts ∧
      ((as.addClasses ts).removeClasses ts).classes = ["a", "b"] := by
  intro as ts
  have hts : ∀ w ∈ ts, IsWord w.toList := by decide
  have hclasses : as.classes = ["a", "b"] := by decide +kernel
  have hdisjoint : ts.Disjoint as.classes := by simp [ts, hclasses]
  obtain ⟨hadded, hremoved, htwice, hback⟩ := classes_added_removed as hts
  rw [hclasses] at hadded hremoved hback
  exact ⟨hts, hdisjoint, hadded, hremoved, htwice, hback (hclasses ▸ hdisjoint)⟩

/-! ## Replacing -/

theorem replaceClass?_eq_none : as.replaceClass? old new = none ↔ old ∉ as.classes := by
  simp [replaceClass?]

/-- Of distinct words the one that is replaced stands at one place. -/
theorem exists_place_of_mem (h : old ∈ ws) (hnodup : ws.Nodup) (new : String) :
    ∃ before after, ws = before ++ old :: after ∧ old ∉ before ∧ old ∉ after ∧
      ws.replace old new = before ++ new :: after := by
  obtain ⟨before, after, rfl, hbefore⟩ := List.eq_append_cons_of_mem h
  have hafter : old ∉ after := (List.nodup_cons.mp (List.nodup_append.mp hnodup).2.1).1
  refine ⟨before, after, rfl, hbefore, hafter, ?_⟩
  rw [List.replace_append, if_neg hbefore, List.replace_cons_self]

/-- Where `new` is a class word already, `old` is only taken out. -/
theorem classes_of_known (hnew : new ∈ as.classes) (h : as.replaceClass? old new = some as') :
    as'.classes = as.classes.erase old := by
  simp only [replaceClass?, hnew, if_true, Option.ite_none_right_eq_some, Option.some.injEq] at h
  rw [← h.2]
  exact classes_setClasses (fun w hw => isWord_of_mem_classes (List.mem_of_mem_erase hw))
    (as.nodup_classes.erase old)

/-- Where `new` is not a class word yet, it comes to where `old` was. -/
theorem exists_place_of_new (hword : IsWord new.toList) (hnew : new ∉ as.classes)
    (h : as.replaceClass? old new = some as') :
    ∃ before after, as.classes = before ++ old :: after ∧ old ∉ before ∧ old ∉ after ∧
      as'.classes = before ++ new :: after := by
  simp only [replaceClass?, hnew, if_false, Option.ite_none_right_eq_some, Option.some.injEq] at h
  obtain ⟨hold, rfl⟩ := h
  obtain ⟨before, after, hsplit, hbefore, hafter, hreplace⟩ :=
    exists_place_of_mem hold as.nodup_classes new
  refine ⟨before, after, hsplit, hbefore, hafter, ?_⟩
  have hwords : ∀ w ∈ as.classes, IsWord w.toList := fun w hw => isWord_of_mem_classes hw
  have hnodup := as.nodup_classes
  rw [hsplit] at hnew hwords hnodup
  rw [hreplace]
  refine classes_setClasses (fun w hw => ?_) ?_
  · rcases List.mem_append.mp hw with hw | hw
    · exact hwords w (List.mem_append_left _ hw)
    · rcases List.mem_cons.mp hw with rfl | hw
      · exact hword
      · exact hwords w (List.mem_append_right _ (.tail _ hw))
  · rw [List.nodup_middle, List.nodup_cons] at hnodup ⊢
    simp only [List.mem_append, List.mem_cons, not_or] at hnew ⊢
    exact ⟨⟨hnew.1, hnew.2.2⟩, hnodup.2⟩

/-- **What replacing a class word does.** It is refused just where the word is not there. Otherwise
the other has taken its place in the set, unless they are the same: then the word is gone. -/
theorem replaced_iff (as : Attributes) (old : String) (hnew : IsWord new.toList) :
    (as.replaceClass? old new = none ↔ old ∉ as.classes) ∧
    ∀ as', as.replaceClass? old new = some as' →
      (Replaced old new as.classes as'.classes ↔ old ≠ new) ∧
      (old = new → as'.classes = as.classes.erase old) := by
  refine ⟨replaceClass?_eq_none, fun as' h => ?_⟩
  have hnodup := as.nodup_classes
  by_cases hknown : new ∈ as.classes
  · have hclasses := classes_of_known hknown h
    refine ⟨⟨fun hreplaced heq => ?_, fun hne => ?_⟩, fun _ => hclasses⟩
    · have harrived := hreplaced.arrived
      rw [hclasses, heq] at harrived
      exact hnodup.not_mem_erase harrived
    · rw [hclasses, hnodup.erase_eq_filter]
      refine ⟨?_, ?_, ?_, ?_⟩
      · simpa [hknown] using Ne.symm hne
      · simp
      · intro w hw hwold _
        rw [List.count_filter (by simpa using hwold)]
        exact List.count_eq_one_of_mem hnodup hw
      · rw [List.filter_filter]
        exact List.filter_congr fun w _ => by by_cases hw : w = old <;> simp [hw]
  · obtain ⟨before, after, hsplit, hbefore, hafter, hclasses⟩ := exists_place_of_new hnew hknown h
    have hne : old ≠ new := fun heq => hknown (by simp [hsplit, heq])
    refine ⟨iff_of_true ?_ hne, fun heq => absurd heq hne⟩
    rw [hclasses]
    refine ⟨by simp, by simp [hbefore, hafter], ?_, by simp [hsplit]⟩
    intro w hw hwold hwnew
    have hone := List.count_eq_one_of_mem hnodup hw
    rw [hsplit, List.count_append, List.count_cons_of_ne (Ne.symm hwold)] at hone
    rw [List.count_append, List.count_cons_of_ne (Ne.symm hwnew), hone]

/-- An `a` that is to give way to `a` is gone. -/
theorem replaced_iff_same :
    let as := ofList [⟨"class", "a b"⟩]
    IsWord "a".toList ∧ ∃ as', as.replaceClass? "a" "a" = some as' ∧
      ¬ Replaced "a" "a" as.classes as'.classes ∧ as'.classes = ["b"] := by
  intro as
  have hword : IsWord "a".toList := by decide
  have hclasses : as.classes = ["a", "b"] := by decide +kernel
  obtain ⟨hrefused, hreplaced⟩ := replaced_iff as "a" hword
  cases h : as.replaceClass? "a" "a" with
  | none => exact absurd (by simp [hclasses]) (hrefused.mp h)
  | some as' =>
    obtain ⟨hiff, hsame⟩ := hreplaced as' h
    refine ⟨hword, as', rfl, fun hr => hiff.mp hr rfl, ?_⟩
    rw [hsame rfl, hclasses]
    rfl

end Attributes

end Hypertext
