/-
The attributes of an element as a finite map that keeps an order. After any
calls each name is there once, with what the last of the changes that are about
it left, and the names stand in the order in which they last came in
(`map_after_calls`).

An attribute that is put in again stays where it is; one that was taken out
comes in anew, and goes last.
-/
import Mathlib.Data.List.Induction
import Mathlib.Data.List.Nodup
import Mathlib.Order.Bounds.Basic
import Hypertext.Tree.Attributes

namespace Hypertext

/-! ## Lists without repetitions -/

theorem eraseDups_concat {α : Type} [DecidableEq α] (l : List α) (a : α) :
    (l ++ [a]).eraseDups = if a ∈ l then l.eraseDups else l.eraseDups ++ [a] := by
  by_cases ha : a ∈ l <;> simp [List.eraseDups_append, List.eraseDups_cons, List.removeAll, ha]

theorem nodup_eraseDups {α : Type} [DecidableEq α] (l : List α) : l.eraseDups.Nodup := by
  induction l using List.reverseRecOn with
  | nil => simp
  | append_singleton l a ih =>
    rw [eraseDups_concat]
    split
    · exact ih
    · next ha =>
      rw [← List.concat_eq_append]
      exact ih.concat (by simpa using ha)

theorem eraseDups_of_nodup {α : Type} [DecidableEq α] {l : List α} (h : l.Nodup) :
    l.eraseDups = l := by
  induction l with
  | nil => simp
  | cons a l ih =>
    obtain ⟨ha, hl⟩ := List.nodup_cons.mp h
    have hothers : l.filter (fun b => !b == a) = l :=
      List.filter_eq_self.mpr fun b hb => by simpa using fun heq : b = a => ha (heq ▸ hb)
    rw [List.eraseDups_cons, hothers, ih hl]

namespace Attributes

variable {a b : Attribute} {l : List Attribute} {as : Attributes} {name : String}

/-! ## Putting in -/

theorem map_name_put (a : Attribute) (l : List Attribute) :
    (put a l).map (·.name) =
      if a.name ∈ l.map (·.name) then l.map (·.name) else l.map (·.name) ++ [a.name] := by
  induction l with
  | nil => rfl
  | cons b l ih =>
    by_cases hb : b.name = a.name
    · simp [put, hb]
    · simp only [put, if_neg hb, List.map_cons, ih, List.mem_cons, Ne.symm hb, false_or]
      split <;> simp

theorem mem_put (h : b ∈ put a l) : b = a ∨ b ∈ l := by
  induction l with
  | nil => exact .inl (List.mem_singleton.mp h)
  | cons c l ih =>
    simp only [put] at h
    split at h
    · rcases List.mem_cons.mp h with h | h
      · exact .inl h
      · exact .inr (.tail _ h)
    · rcases List.mem_cons.mp h with h | h
      · exact .inr (h ▸ List.mem_cons_self)
      · exact (ih h).imp_right fun h => .tail _ h

/-- The attributes of other names stay as they are. -/
theorem filter_put (a : Attribute) (l : List Attribute) :
    (put a l).filter (·.name ≠ a.name) = l.filter (·.name ≠ a.name) := by
  induction l with
  | nil => simp [put]
  | cons b l ih =>
    by_cases hb : b.name = a.name
    · simp [put, hb]
    · simp only [put, if_neg hb, List.filter_cons, ih]

theorem put_put (a : Attribute) (l : List Attribute) : put a (put a l) = put a l := by
  induction l with
  | nil => exact if_pos rfl
  | cons b l ih =>
    by_cases hb : b.name = a.name
    · simp only [put, if_pos hb, if_true]
    · simp only [put, if_neg hb, ih]

theorem insert_insert (as : Attributes) (a : Attribute) : (as.insert a).insert a = as.insert a :=
  congrArg Attributes.mk (put_put a as.entries)

theorem nodup_insert (a : Attribute) (h : (as.entries.map (·.name)).Nodup) :
    ((as.insert a).entries.map (·.name)).Nodup := by
  rw [insert, map_name_put]
  split
  · exact h
  · next hnew =>
    rw [← List.concat_eq_append]
    exact h.concat hnew

theorem put_eq (a : Attribute) (l : List Attribute) :
    put a l =
      match l.findIdx? (·.name = a.name) with
      | some place => l.set place a
      | none => l ++ [a] := by
  induction l with
  | nil => rfl
  | cons b l ih =>
    rw [put, List.findIdx?_cons]
    by_cases hb : b.name = a.name
    · simp [hb]
    · rw [if_neg hb, if_neg (by simpa using hb), ih]
      cases l.findIdx? (·.name = a.name) <;> rfl

/-- The attribute that gives way is the one that was there. -/
theorem exchange_eq (as : Attributes) (a : Attribute) :
    as.exchange a = (as.find? a.name, as.insert a) := by
  rw [exchange, find?, insert, List.find?_eq_bind_findIdx?_getElem?, put_eq]
  cases as.entries.findIdx? (·.name = a.name) <;> rfl

/-! ## Taking out -/

theorem nodup_erase (name : String) (h : (as.entries.map (·.name)).Nodup) :
    ((as.erase name).entries.map (·.name)).Nodup :=
  h.sublist (List.eraseP_sublist.map _)

/-- Of different names an erased one is gone. -/
theorem ne_of_mem_erase (h : (as.entries.map (·.name)).Nodup) (hb : b ∈ (as.erase name).entries) :
    b.name ≠ name := by
  obtain ⟨l⟩ := as
  change b ∈ l.eraseP (·.name = name) at hb
  induction l with
  | nil => cases hb
  | cons c l ih =>
    rw [List.map_cons, List.nodup_cons] at h
    obtain ⟨hnew, hrest⟩ := h
    by_cases hc : c.name = name
    · rw [List.eraseP_cons_of_pos (by simpa using hc)] at hb
      rintro rfl
      rw [hc] at hnew
      exact hnew (List.mem_map_of_mem hb)
    · rw [List.eraseP_cons_of_neg (by simpa using hc)] at hb
      rcases List.mem_cons.mp hb with rfl | hb
      · exact hc
      · exact ih hrest hb

theorem erase_erase (h : (as.entries.map (·.name)).Nodup) :
    (as.erase name).erase name = as.erase name :=
  congrArg Attributes.mk (List.eraseP_of_forall_not fun _ hb => by simpa using ne_of_mem_erase h hb)

theorem find?_erase_of_ne {other : String} (hne : name ≠ other) :
    (as.erase name).find? other = as.find? other := by
  obtain ⟨l⟩ := as
  change (l.eraseP (·.name = name)).find? (·.name = other) = l.find? (·.name = other)
  induction l with
  | nil => rfl
  | cons b l ih =>
    by_cases hb : b.name = name
    · rw [List.eraseP_cons_of_pos (by simpa using hb),
        List.find?_cons_of_neg (by simpa using hb ▸ hne)]
    · rw [List.eraseP_cons_of_neg (by simpa using hb), List.find?_cons, List.find?_cons, ih]

/-- After an erasure the name has no attribute, and every other name what it had. -/
theorem find?_erase (h : (as.entries.map (·.name)).Nodup) (other : String) :
    (as.erase name).find? other = if name = other then none else as.find? other := by
  split
  · next heq =>
    refine List.find?_eq_none.mpr fun b hb => ?_
    simpa using heq ▸ ne_of_mem_erase h hb
  · next hne => exact find?_erase_of_ne hne

/-- The attribute that is taken out is the one that was there. -/
theorem withdraw_eq (as : Attributes) (name : String) :
    as.withdraw name = (as.find? name, as.erase name) := by
  rw [withdraw, find?, erase, List.find?_eq_bind_findIdx?_getElem?, List.eraseP_eq_eraseIdx]
  cases as.entries.findIdx? (·.name = name) <;> rfl

/-! ## Finite maps made of lists -/

theorem isSome_find?_iff :
    (as.find? name).isSome = true ↔ name ∈ as.entries.map (·.name) := by
  simp [find?]

theorem contains_iff : as.contains name = true ↔ ∃ value, as.get? name = some value := by
  simp [contains, get?, Option.isSome_iff_exists]

theorem find?_of_mem (hnodup : (l.map (·.name)).Nodup) (ha : a ∈ l) :
    l.find? (·.name = a.name) = some a := by
  induction l with
  | nil => cases ha
  | cons b l ih =>
    rw [List.map_cons, List.nodup_cons] at hnodup
    rcases List.mem_cons.mp ha with rfl | ha
    · exact List.find?_cons_of_pos (by simp)
    · have hne : b.name ≠ a.name := by
        intro heq
        rw [heq] at hnodup
        exact hnodup.1 (List.mem_map_of_mem ha)
      rw [List.find?_cons_of_neg (by simpa using hne), ih hnodup.2 ha]

/-- Names stay different, and entries come from where they are put in from. -/
theorem foldl_insert_spec (l : List Attribute) (hnodup : (as.entries.map (·.name)).Nodup) :
    (∀ b ∈ (l.foldl insert as).entries, b ∈ as.entries ∨ b ∈ l) ∧
      ((l.foldl insert as).entries.map (·.name)).Nodup := by
  induction l generalizing as with
  | nil => exact ⟨fun b hb => .inl hb, hnodup⟩
  | cons a l ih =>
    obtain ⟨hmem, hdistinct⟩ := ih (nodup_insert a hnodup)
    refine ⟨fun b hb => ?_, hdistinct⟩
    rcases hmem b hb with hb | hb
    · rcases mem_put hb with rfl | hb
      · exact .inr List.mem_cons_self
      · exact .inl hb
    · exact .inr (.tail _ hb)

/-- A finite map made of a list has its entries from there, and each name once. -/
theorem ofList_spec (l : List Attribute) :
    (∀ b ∈ (ofList l).entries, b ∈ l) ∧ ((ofList l).entries.map (·.name)).Nodup := by
  have hnone : (({} : Attributes).entries.map (·.name)).Nodup := .nil
  obtain ⟨hmem, hdistinct⟩ := foldl_insert_spec l hnone
  exact ⟨fun b hb => (hmem b hb).resolve_left List.not_mem_nil, hdistinct⟩

/-! ## Histories -/

/-- A call that changes a map. -/
inductive Call where
  | set (a : Attribute)
  | remove (name : String)
  /-- Makes the map anew from a list. -/
  | collect (l : List Attribute)

/-- What a call gives back, and the map after it. -/
def Call.on (as : Attributes) : Call → Option Attribute × Attributes
  | .set a => as.exchange a
  | .remove name => as.withdraw name
  | .collect l => (none, ofList l)

/-- The map after a number of calls, the first of them on the empty map. -/
def after (calls : List Call) : Attributes :=
  calls.foldl (fun as call => (call.on as).2) {}

/-- One of the single changes that calls come down to. -/
inductive Change where
  | clear
  | set (a : Attribute)
  | remove (name : String)

def Change.on (as : Attributes) : Change → Attributes
  | .clear => {}
  | .set a => as.insert a
  | .remove name => as.erase name

def Call.changes : Call → List Change
  | .set a => [.set a]
  | .remove name => [.remove name]
  | .collect l => .clear :: l.map .set

/-- What a change leaves under a name, if it is about that name. -/
def Change.leaves? (name : String) : Change → Option (Option Attribute)
  | .clear => some none
  | .set a => if a.name = name then some (some a) else none
  | .remove other => if other = name then some none else none

/-- What a name has now: what the last of the changes that are about it left there. -/
def current? (changes : List Change) (name : String) : Option Attribute :=
  (changes.reverse.findSome? (Change.leaves? name)).join

/-- The change at that place sets a name that is not there. -/
def Enters (changes : List Change) (name : String) (place : Nat) : Prop :=
  ∃ a, changes[place]? = some (.set a) ∧ a.name = name ∧ current? (changes.take place) name = none

/-- The place where a name came in, the last time it did. -/
def LastEnters (changes : List Change) (name : String) (place : Nat) : Prop :=
  IsGreatest {p | Enters changes name p} place

/-- The one name came in, the last time it did, before the other. -/
def EntersBefore (changes : List Change) (name other : String) : Prop :=
  ∃ p q, LastEnters changes name p ∧ LastEnters changes other q ∧ p < q

/-- A map is as a history of changes has it. -/
structure Reflects (changes : List Change) (as : Attributes) : Prop where
  distinct : (as.entries.map (·.name)).Nodup
  found : ∀ name, as.find? name = current? changes name
  entered : ∀ name ∈ as.entries.map (·.name), ∃ p, LastEnters changes name p
  ordered : (as.entries.map (·.name)).Pairwise (EntersBefore changes)

section Histories

variable {changes : List Change} {c : Change} {p : Nat}

theorem current?_concat (changes : List Change) (c : Change) (name : String) :
    current? (changes ++ [c]) name = (c.leaves? name).getD (current? changes name) := by
  rw [current?, current?, List.reverse_concat, List.findSome?_cons]
  cases c.leaves? name <;> rfl

theorem Enters.lt_length (h : Enters changes name p) : p < changes.length := by
  obtain ⟨a, ha, -⟩ := h
  exact (List.getElem?_eq_some_iff.mp ha).1

/-- What came in before still has, and the next change brings a name in where it sets it anew. -/
theorem enters_concat : Enters (changes ++ [c]) name p ↔ Enters changes name p ∨
    p = changes.length ∧ (∃ a, c = .set a ∧ a.name = name) ∧ current? changes name = none := by
  rcases Nat.lt_trichotomy p changes.length with hp | rfl | hp
  · simp [Enters, List.getElem?_append_left hp, List.take_append_of_le_length (Nat.le_of_lt hp),
      Nat.ne_of_lt hp]
  · simp [Enters, ← and_assoc]
  · have hnot : ¬ Enters changes name p := fun h => Nat.lt_asymm hp h.lt_length
    have hnot' : ¬ Enters (changes ++ [c]) name p := fun h => by
      have hlt : p < changes.length + 1 := by simpa using h.lt_length
      omega
    exact iff_of_false hnot' (not_or.mpr ⟨hnot, fun h => Nat.ne_of_gt hp h.1⟩)

/-- A name that is there does not come in. -/
theorem lastEnters_concat (h : current? changes name ≠ none) (c : Change) (p : Nat) :
    LastEnters (changes ++ [c]) name p ↔ LastEnters changes name p := by
  have hsame : {p | Enters (changes ++ [c]) name p} = {p | Enters changes name p} :=
    Set.ext fun p => enters_concat.trans (or_iff_left fun hnew => h hnew.2.2)
  rw [LastEnters, LastEnters, hsame]

/-- A name that is set anew comes in after all others. -/
theorem lastEnters_new (h : current? changes a.name = none) :
    LastEnters (changes ++ [.set a]) a.name changes.length := by
  refine ⟨enters_concat.mpr (.inr ⟨rfl, ⟨a, rfl, rfl⟩, h⟩), fun p hp => ?_⟩
  exact Nat.le_of_lt_succ (by simpa using Enters.lt_length hp)

namespace Reflects

theorem mem_iff (h : Reflects changes as) :
    name ∈ as.entries.map (·.name) ↔ current? changes name ≠ none := by
  rw [← isSome_find?_iff, h.found, Option.isSome_iff_ne_none]

/-- Names that are there have come in as they had before. -/
theorem kept (h : Reflects changes as) (c : Change) {names : List String}
    (hnames : names.Sublist (as.entries.map (·.name))) :
    (∀ name ∈ names, ∃ p, LastEnters (changes ++ [c]) name p) ∧
      names.Pairwise (EntersBefore (changes ++ [c])) := by
  have hthere : ∀ name ∈ names, ∀ p,
      LastEnters changes name p → LastEnters (changes ++ [c]) name p :=
    fun name hname p => (lastEnters_concat (h.mem_iff.mp (hnames.subset hname)) c p).mpr
  refine ⟨fun name hname => ?_, ?_⟩
  · obtain ⟨p, hp⟩ := h.entered name (hnames.subset hname)
    exact ⟨p, hthere name hname p hp⟩
  · refine (h.ordered.sublist hnames).imp_of_mem fun hm hn hbefore => ?_
    obtain ⟨p, q, hp, hq, hlt⟩ := hbefore
    exact ⟨p, q, hthere _ hm p hp, hthere _ hn q hq, hlt⟩

theorem clear (changes : List Change) : Reflects (changes ++ [.clear]) {} where
  distinct := .nil
  found name := by
    rw [current?_concat]
    rfl
  entered _ h := nomatch h
  ordered := .nil

theorem set (h : Reflects changes as) (a : Attribute) :
    Reflects (changes ++ [.set a]) (as.insert a) := by
  have hfound : ∀ name, (as.insert a).find? name = current? (changes ++ [.set a]) name := by
    intro name
    rw [find?_insert, h.found, current?_concat, Change.leaves?]
    split <;> rfl
  obtain ⟨hentered, hordered⟩ := h.kept (.set a) (List.Sublist.refl _)
  have hnames := map_name_put a as.entries
  by_cases ha : a.name ∈ as.entries.map (·.name)
  · rw [if_pos ha] at hnames
    exact ⟨nodup_insert a h.distinct, hfound, hnames ▸ hentered, hnames ▸ hordered⟩
  · rw [if_neg ha] at hnames
    have hlast := lastEnters_new (not_not.mp (mt h.mem_iff.mpr ha))
    refine ⟨nodup_insert a h.distinct, hfound, hnames ▸ fun name hname => ?_,
      hnames ▸ List.pairwise_append.mpr ⟨hordered, List.pairwise_singleton _ _, ?_⟩⟩
    · rcases List.mem_append.mp hname with hname | hname
      · exact hentered name hname
      · rw [List.mem_singleton.mp hname]
        exact ⟨_, hlast⟩
    · intro name hname last hmem
      rw [List.mem_singleton.mp hmem]
      obtain ⟨p, hp⟩ := h.entered name hname
      exact ⟨p, changes.length, (lastEnters_concat (h.mem_iff.mp hname) _ p).mpr hp, hlast,
        Enters.lt_length hp.1⟩

theorem remove (h : Reflects changes as) (name : String) :
    Reflects (changes ++ [.remove name]) (as.erase name) := by
  obtain ⟨hentered, hordered⟩ :=
    h.kept (.remove name) (List.eraseP_sublist.map Attribute.name)
  refine ⟨nodup_erase name h.distinct, fun other => ?_, hentered, hordered⟩
  rw [find?_erase h.distinct, h.found, current?_concat, Change.leaves?]
  split <;> rfl

/-- One change more. -/
theorem step (h : Reflects changes as) (c : Change) : Reflects (changes ++ [c]) (c.on as) := by
  cases c with
  | clear => exact clear changes
  | set a => exact h.set a
  | remove name => exact h.remove name

theorem run (h : Reflects changes as) (more : List Change) :
    Reflects (changes ++ more) (more.foldl Change.on as) := by
  induction more generalizing changes as with
  | nil => rwa [List.append_nil]
  | cons c more ih =>
    have hstep := ih (h.step c)
    rwa [List.append_assoc] at hstep

theorem nil : Reflects [] {} where
  distinct := .nil
  found _ := rfl
  entered _ h := nomatch h
  ordered := .nil

end Reflects

theorem foldl_set (l : List Attribute) (as : Attributes) :
    (l.map Change.set).foldl Change.on as = l.foldl insert as :=
  List.foldl_map

/-- A call is its changes, one by one. -/
theorem on_eq (as : Attributes) (call : Call) : (call.on as).2 = call.changes.foldl Change.on as := by
  cases call with
  | set a => rw [Call.on, exchange_eq]; rfl
  | remove name => rw [Call.on, withdraw_eq]; rfl
  | collect l => exact (foldl_set l {}).symm

theorem after_eq (calls : List Call) :
    after calls = (calls.flatMap Call.changes).foldl Change.on {} := by
  have hon : (fun as call => (Call.on as call).2) =
      fun as call => call.changes.foldl Change.on as := funext₂ on_eq
  rw [after, hon, List.foldl_flatMap]

theorem reflects_after (calls : List Call) :
    Reflects (calls.flatMap Call.changes) (after calls) := by
  rw [after_eq]
  exact Reflects.nil.run _

/-- Collecting a list is setting its entries, whatever was there before. -/
theorem after_collect (calls : List Call) (l : List Attribute) :
    after (calls ++ [.collect l]) = after (l.map .set) := by
  have hset : (l.map Call.set).flatMap Call.changes = l.map Change.set := by
    rw [List.flatMap_map]
    exact List.flatMap_pure_eq_map _ l
  rw [after_eq (l.map .set), hset, foldl_set, after, List.foldl_concat]
  rfl

end Histories

/-- **Maps keep what was put in, in order.** After any calls on the empty map the names are
different; what is found under a name is what the last change about it left there, and is also what
putting in or taking out gives back; the attributes are listed in the order in which their names
last came in; and collecting a list is setting its entries one by one. -/
theorem map_after_calls (calls : List Call) :
    let as := after calls
    let changes := calls.flatMap Call.changes
    (as.entries.map (·.name)).Nodup ∧
    (∀ name, as.find? name = current? changes name ∧
      as.get? name = (current? changes name).map (·.value) ∧
      as.contains name = (current? changes name).isSome) ∧
    (∀ a, (as.exchange a).1 = current? changes a.name) ∧
    (∀ name, (as.withdraw name).1 = current? changes name) ∧
    (∀ a, a ∈ as.entries ↔ current? changes a.name = some a) ∧
    as.entries.Pairwise (fun a b => EntersBefore changes a.name b.name) ∧
    (∀ place, as.at? place = as.entries[place]?) ∧
    ∀ l, after (calls ++ [.collect l]) = after (l.map .set) := by
  intro as changes
  have hreflects : Reflects changes as := reflects_after calls
  have hfound := hreflects.found
  have hmem : ∀ a, a ∈ as.entries ↔ as.find? a.name = some a := fun a =>
    ⟨find?_of_mem hreflects.distinct, List.mem_of_find?_eq_some⟩
  refine ⟨hreflects.distinct, fun name => ⟨hfound name, ?_, ?_⟩, fun a => ?_, fun name => ?_,
    fun a => hfound a.name ▸ hmem a, List.pairwise_map.mp hreflects.ordered, fun _ => rfl,
    after_collect calls⟩
  · rw [get?, hfound]
  · rw [contains, hfound]
  · rw [exchange_eq, hfound]
  · rw [withdraw_eq, hfound]

example : (((ofList [⟨"a", "1"⟩, ⟨"b", "2"⟩]).erase "a").set "a" "3").entries =
    [⟨"b", "2"⟩, ⟨"a", "3"⟩] := by decide

end Attributes

end Hypertext
