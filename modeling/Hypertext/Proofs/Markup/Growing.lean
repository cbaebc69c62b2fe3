/-
The tokens of a proper forest grow that forest. With nobody watching, and
where the elements already stand as the parser would put them, no wrapper is
made and nothing is mended: each text and each element comes where it belongs,
each end tag closes the element it was written for, and of all the growth only
the tree has changed (`Forest.Proper.grows`).
-/
import Hypertext.Markup.Parser
import Hypertext.Proofs.Markup.Cutting
import Hypertext.Proofs.Tree.Grown

namespace Hypertext

/-! ## Attributes of different names -/

theorem Attributes.put_of_not_mem {a : Attribute} {l : List Attribute}
    (h : a.name ∉ l.map (·.name)) : Attributes.put a l = l ++ [a] := by
  induction l with
  | nil => rfl
  | cons b l ih =>
    simp only [List.map_cons, List.mem_cons, not_or] at h
    rw [Attributes.put, if_neg (Ne.symm h.1), ih h.2, List.cons_append]

theorem Attributes.ofList_entries {as : Attributes} (h : (as.entries.map (·.name)).Nodup) :
    Attributes.ofList as.entries = as := by
  have hfold : ∀ (l before : List Attribute), ((before ++ l).map (·.name)).Nodup →
      l.foldl Attributes.insert ⟨before⟩ = ⟨before ++ l⟩ := by
    intro l
    induction l with
    | nil => intro before _; rw [List.append_nil]; rfl
    | cons a l ih =>
      intro before hnodup
      have hnew : a.name ∉ before.map (·.name) := by
        rw [List.map_append, List.map_cons, List.nodup_append] at hnodup
        exact fun hmem => hnodup.2.2 _ hmem _ List.mem_cons_self rfl
      rw [List.foldl_cons, Attributes.insert, Attributes.put_of_not_mem hnew,
        List.append_cons before a l]
      exact ih _ (by rw [← List.append_cons]; exact hnodup)
  exact hfold as.entries [] h

namespace Markup

/-- Nobody watches. -/
abbrev unwatched : Observer Unit := fun _ s => s

namespace Growth

/-- The growth goes on in a node that holds children: the document, or the given element. -/
structure Poised (g : Growth Unit) (parent : Option Element) : Prop where
  linked : g.tree.Linked
  document : g.tree.content? Tree.root = some .document
  inner : match parent with
    | none => g.innermost = Tree.root
    | some e => g.tree.content? g.innermost = some (.element e)

variable {g : Growth Unit} {parent : Option Element}

theorem Poised.content (h : Poised g parent) :
    ∃ c, g.tree.content? g.innermost = some c ∧ ∀ s, c ≠ .text s := by
  cases parent with
  | none => exact ⟨.document, by rw [h.inner, h.document], by simp⟩
  | some e => exact ⟨.element e, h.inner, by simp⟩

/-- The tree with one more node under the innermost element. -/
def extended (g : Growth Unit) (content : Content) : Tree :=
  (g.tree.create content).2.attach g.innermost ⟨g.tree.size⟩

theorem Poised.takeText (h : Poised g parent) (index : Nat) (s : String) :
    g.takeText unwatched index s = { g with tree := g.extended (.text s) } := by
  obtain ⟨c, hc, htext⟩ := h.content
  simp only [Growth.takeText, Tree.create_fst, h.linked.append_new_text hc htext s]
  rfl

/-- An element where it belongs gets no wrappers. -/
theorem Poised.shelter (h : Poised g parent) {e : Element} (hbelongs : e.Belongs parent) :
    (g.tree.create (.element e)).2.shelter g.innermost e.tag =
      (g.innermost, (g.tree.create (.element e)).2) := by
  obtain ⟨c, hc, -⟩ := h.content
  have htag : (g.tree.create (.element e)).2.tag? g.innermost = g.tree.tag? g.innermost := by
    rw [Tree.tag?, Tree.element?_create_of_lt (Tree.lt_size_of_content? hc), Tree.tag?]
  have hhtml : ¬ (g.innermost = Tree.root ∧ e.tag ≠ "HTML") := by
    intro h
    obtain ⟨hroot, hne⟩ := h
    cases parent with
    | none => exact hne hbelongs
    | some p =>
      have hdocument := h.document
      rw [← hroot, h.inner] at hdocument
      cases hdocument
  have hbody : ¬ (g.tree.tag? g.innermost = some "HTML" ∧ e.tag ≠ "HEAD" ∧ e.tag ≠ "BODY") := by
    intro h
    obtain ⟨hparent, hhead, hbody⟩ := h
    cases parent with
    | none =>
      rw [h.inner, Tree.tag?, Tree.element?, h.document] at hparent
      cases hparent
    | some p =>
      rw [Tree.tag?, Tree.element?_eq_some.mpr h.inner, Option.map_some] at hparent
      rcases hbelongs (Option.some.inj hparent) with h | h
      · exact hhead h
      · exact hbody h
  simp only [Tree.shelter, if_neg hhtml, htag, if_neg hbody]

/-- What is open between an element and the innermost one before it: nothing. -/
theorem openBetween_of_parent? {id : NodeId} (hl : g.tree.Linked)
    (hparent : g.tree.parent? id = some g.innermost) : g.openBetween id = g := by
  rw [openBetween, hl.ancestors_of_parent? hparent]
  simp

theorem Poised.takeStart (h : Poised g parent) (index : Nat) {e : Element} (he : e.Proper)
    (hbelongs : e.Belongs parent) (hroot : parent = none → g.tree.documentElement? = none) :
    g.takeStart unwatched index e.tag e.attributes.entries =
      if isVoid e.tag then { g with tree := g.extended (.element e) }
      else { g with
        tree := g.extended (.element e)
        stack := ⟨⟨g.tree.size⟩, true⟩ :: g.stack } := by
  obtain ⟨c, hc, htext⟩ := h.content
  have hsource : ({ Element.ofTag e.tag with
      attributes := .ofList e.attributes.entries } : Element) = e := by
    have htag : e.tag.toUpper = e.tag := by rw [← toUpper_tag he, Case.toUpper_toUpper]
    simp only [Element.ofTag, Attributes.ofList_entries he.names, htag]
  have hfirst : ¬ (g.innermost = Tree.root ∧
      (g.tree.create (.element e)).2.documentElement?.isSome = true) := by
    intro h
    obtain ⟨hinner, hsome⟩ := h
    rw [Tree.documentElement?_create h.linked] at hsome
    cases parent with
    | none => simp [hroot rfl] at hsome
    | some p =>
      have hdocument := h.document
      rw [← hinner, h.inner] at hdocument
      cases hdocument
  have happend := h.linked.append_new_element hc htext e
  rw [if_neg hfirst, h.shelter hbelongs] at happend
  obtain ⟨hgrown, -, -, hparent, -⟩ :=
    h.linked.grown_attach (.element e) (by simp) hc htext
  have hplace : place index ⟨g.tree.size⟩ e.tag { g with tree := (g.tree.create (.element e)).2 } =
      ({ g with tree := g.extended (.element e) }, true) := by
    have hinner : innermost { g with tree := (g.tree.create (.element e)).2 } = g.innermost := rfl
    simp only [place, hinner, happend]
    rfl
  have hopen : openBetween ⟨g.tree.size⟩ { g with tree := g.extended (.element e) } =
      { g with tree := g.extended (.element e) } :=
    openBetween_of_parent? hgrown.linked hparent
  simp only [Growth.takeStart, hsource, Tree.create_fst, hplace, hopen]
  rfl

theorem takeEnd_void (index : Nat) {tag : String} (h : isVoid tag = true) :
    g.takeEnd unwatched index tag = g := by
  rw [Growth.takeEnd, if_pos h]

/-- The end tag of the innermost element. -/
theorem takeEnd_innermost (index : Nat) {tag : String} {id : NodeId} {rest : List OpenElement}
    (hvoid : isVoid tag = false) (hstack : g.stack = ⟨id, true⟩ :: rest)
    (htag : g.tree.tag? id = some tag) :
    g.takeEnd unwatched index tag = { g with stack := rest } := by
  simp [Growth.takeEnd, hvoid, hstack, htag, Growth.announceEnd, Growth.notify]

/-- Growth under the innermost element leaves it innermost. -/
theorem Poised.grown (h : Poised g parent) {t : Tree} {ids : List NodeId}
    (hgrown : g.tree.Grown t g.innermost ids) : Poised { g with tree := t } parent where
  linked := hgrown.linked
  document := (hgrown.content _ (Tree.lt_size_of_content? h.document)).trans h.document
  inner := by
    cases parent with
    | none => exact h.inner
    | some e => exact (hgrown.content _ (Tree.lt_size_of_content? h.inner)).trans h.inner

end Growth

end Markup

open Markup Growth

/-! ## Forests -/

namespace Forest

/-- The tokens of the forest grow it wherever it may stand, and change nothing else. -/
def Grows (parent : Option Element) (f : Forest) : Prop :=
  ∀ (g : Growth Unit) (l : List (Nat × Token)), g.Poised parent →
    (parent = none → (g.tree.tops ++ f.tops).length ≤ 1) → l.map (·.2) = f.tokens →
    ∃ t ids, l.foldl (take unwatched) g = { g with tree := t } ∧
      g.tree.Grown t g.innermost ids ∧ t.Holds g.tree.size f ids

theorem tokens_append (f g : Forest) : (f.append g).tokens = f.tokens ++ g.tokens := by
  induction f with
  | nil => rfl
  | text s rest ih => rw [append, tokens, ih, tokens, List.cons_append]
  | element e inside rest _ ih =>
    rw [append, tokens, ih, tokens]
    simp

variable {parent : Option Element} {f f' inside : Forest} {e : Element}

theorem grows_nil : Grows parent .nil := by
  intro g l hg _ hl
  rw [List.map_eq_nil_iff.mp hl]
  exact ⟨g.tree, [], rfl, .refl hg.linked _, .nil⟩

theorem Grows.append (h : Grows parent f) (h' : Grows parent f') : Grows parent (f.append f') := by
  intro g l hg hroot hl
  rw [tokens_append] at hl
  obtain ⟨l₁, l₂, rfl, hl₁, hl₂⟩ := List.map_eq_append_iff.mp hl
  simp only [tops_append] at hroot
  obtain ⟨t, ids, hfold, hgrown, hholds⟩ := h g l₁ hg
    (fun hnone => by have := hroot hnone; simp at this ⊢; omega) hl₁
  have htops : parent = none → (t.tops ++ f'.tops).length ≤ 1 := by
    intro hnone
    subst hnone
    have hinner : g.innermost = Tree.root := hg.inner
    rw [hinner] at hgrown
    rw [hgrown.tops_eq hg.linked hholds, List.append_assoc]
    exact hroot rfl
  obtain ⟨t', ids', hfold', hgrown', hholds'⟩ := h' _ l₂ (hg.grown hgrown) htops hl₂
  obtain ⟨c, hc, -⟩ := hg.content
  refine ⟨t', ids ++ ids', ?_, hgrown.trans hgrown', ?_⟩
  · rw [List.foldl_append, hfold, hfold']
  · exact (hholds.grown (Tree.lt_size_of_content? hc) hgrown').append (hholds'.mono hgrown.size_le)

theorem grows_text {s : String} : Grows parent (.text s .nil) := by
  intro g l hg _ hl
  obtain ⟨⟨index, token⟩, rest, rfl, rfl, hrest⟩ := List.map_eq_cons_iff.mp hl
  obtain rfl := List.map_eq_nil_iff.mp hrest
  obtain ⟨c, hc, htext⟩ := hg.content
  obtain ⟨hgrown, hcontent, hleaf, -, -⟩ := hg.linked.grown_attach (.text s) (by simp) hc htext
  refine ⟨g.extended (.text s), [⟨g.tree.size⟩], ?_, hgrown, ?_⟩
  · rw [List.foldl_cons, List.foldl_nil]
    exact hg.takeText index s
  · exact .text (Nat.le_refl _) hcontent hleaf .nil

theorem grows_element (he : e.Proper) (hbelongs : e.Belongs parent)
    (hvoid : isVoid e.tag = true → inside = .nil) (h : Grows (some e) inside) :
    Grows parent (.element e inside .nil) := by
  intro g l hg hroot hl
  obtain ⟨⟨index, token⟩, later, rfl, rfl, hlater⟩ := List.map_eq_cons_iff.mp hl
  obtain ⟨within, ends, rfl, hwithin, hends⟩ := List.map_eq_append_iff.mp hlater
  obtain ⟨⟨index', token⟩, rest, rfl, rfl, hrest⟩ := List.map_eq_cons_iff.mp hends
  obtain rfl := List.map_eq_nil_iff.mp hrest
  obtain ⟨c, hc, htext⟩ := hg.content
  obtain ⟨hgrown, hcontent, hleaf, -, hsize⟩ :=
    hg.linked.grown_attach (.element e) (by simp) hc htext
  have hnoroot : parent = none → g.tree.documentElement? = none := by
    intro hnone
    have hlength := hroot hnone
    rw [Forest.tops, Forest.tops, List.length_append, List.length_singleton] at hlength
    exact Tree.documentElement?_eq_none.mpr (List.eq_nil_of_length_eq_zero (by omega))
  have hstart := hg.takeStart index he hbelongs hnoroot
  rw [List.foldl_cons, List.foldl_append, List.foldl_cons, List.foldl_nil]
  simp only [take, hstart]
  by_cases hv : isVoid e.tag = true
  · obtain rfl := hvoid hv
    obtain rfl := List.map_eq_nil_iff.mp hwithin
    refine ⟨g.extended (.element e), [⟨g.tree.size⟩], ?_, hgrown,
      .element (Nat.le_refl _) hcontent (by rw [extended, hleaf]; exact .nil) .nil⟩
    rw [List.foldl_nil, if_pos hv, takeEnd_void _ hv]
  · rw [if_neg hv]
    have hpoised : Poised { g with
        tree := g.extended (.element e)
        stack := ⟨⟨g.tree.size⟩, true⟩ :: g.stack } (some e) :=
      ⟨hgrown.linked, (hg.grown hgrown).document, hcontent⟩
    obtain ⟨t, ids, hfold, hgrown', hholds⟩ := h _ within hpoised (by simp) hwithin
    have hnew : (⟨g.tree.size⟩ : NodeId).index < (g.extended (.element e)).size := by
      rw [extended, hsize]
      exact Nat.lt_succ_self _
    have hcontent' : t.content? ⟨g.tree.size⟩ = some (.element e) :=
      (hgrown'.content _ hnew).trans hcontent
    have htag : t.tag? ⟨g.tree.size⟩ = some e.tag := by
      rw [Tree.tag?, Tree.element?_eq_some.mpr hcontent', Option.map_some]
    refine ⟨t, [⟨g.tree.size⟩], ?_,
      hgrown.inside (Tree.lt_size_of_content? hc) (Nat.le_refl _) hgrown', ?_⟩
    · rw [hfold, takeEnd_innermost index' (Bool.eq_false_iff.mpr hv) rfl htag]
    · refine .element (Nat.le_refl _) hcontent' ?_ .nil
      have hadded : t.children ⟨g.tree.size⟩ = ids := by
        have hchildren : t.children ⟨g.tree.size⟩ =
            (g.extended (.element e)).children ⟨g.tree.size⟩ ++ ids := hgrown'.added
        rw [hchildren, extended, hleaf, List.nil_append]
      rw [hadded]
      exact hholds.mono hgrown.size_le

/-- **Growing undoes cutting.** A proper forest grows from its tokens. -/
theorem Proper.grows (hf : f.Proper parent) : Grows parent f := by
  induction hf with
  | nil => exact grows_nil
  | text _ _ _ _ ih => exact grows_text.append ih
  | element he hbelongs _ hvoid _ _ ihinside ihrest =>
    exact (grows_element he hbelongs hvoid ihinside).append ihrest
  | @raw parent e r inside rest he hbelongs hraw hinside _ ihrest =>
    have hgrows : Grows (some e) inside := by
      rcases hinside with rfl | ⟨s, -, -, rfl⟩
      · exact grows_nil
      · exact grows_text
    have hvoid : isVoid e.tag = true → inside = .nil := by
      rw [isVoid_of_raw hraw]
      exact fun h => absurd h Bool.false_ne_true
    exact (grows_element he hbelongs hvoid hgrows).append ihrest

end Forest

end Hypertext
