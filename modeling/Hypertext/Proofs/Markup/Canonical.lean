/-
Trees that markup can say in full. Nothing in a canonical tree is lost when it
is written: its texts begin no tags, its names and values keep to their places,
and its elements stand where the parser would put them.

A canonical tree is told by what each of its nodes is (`Tree.Canonical`); for
proofs the same is said along the forest below the document (`Forest.Proper`).
-/
import Mathlib.Data.List.Chain
import Hypertext.Markup.Tokenizer
import Hypertext.Proofs.Text.Case
import Hypertext.Proofs.Tree.Forest

namespace Hypertext

namespace Markup

/-- No tag begins in a text: there is neither the beginning of a start tag nor a whole end tag. -/
structure Plain (cs : List Char) : Prop where
  start : ∀ c : Char, c.isAlphanum = true → ¬ ['<', c] <:+: cs
  stop : ∀ name : List Char, (∀ c ∈ name, c.isAlphanum = true) →
    ¬ '<' :: '/' :: name ++ ['>'] <:+: cs

/-- The end tag of a raw text element does not occur, in whatever letter case. -/
def RawText.Unclosed (e : RawText) (cs : List Char) : Prop :=
  ¬ '<' :: e.closing <:+: cs.map Char.toLower

theorem Plain.part {cs ds : List Char} (h : Plain cs) (hd : ds <:+: cs) : Plain ds where
  start c hc hi := h.start c hc (hi.trans hd)
  stop name hname hi := h.stop name hname (hi.trans hd)

theorem RawText.Unclosed.part {e : RawText} {cs ds : List Char} (h : e.Unclosed cs)
    (hd : ds <:+: cs) : e.Unclosed ds :=
  fun hi => h (hi.trans (hd.map _))

end Markup

open Markup

/-- The name begins with a letter or digit and goes on with name characters; at most one kind of
quote is in the value. -/
structure Attribute.Proper (a : Attribute) : Prop where
  name : ∃ c cs, a.name.toList = c :: cs ∧ c.isAlphanum = true ∧ ∀ x ∈ cs, isNameChar x = true
  value : ¬ ('"' ∈ a.value.toList ∧ '\'' ∈ a.value.toList)

/-- The tag is of capitals and digits; the attributes are well formed and of different names. -/
structure Element.Proper (e : Element) : Prop where
  ne : e.tag ≠ ""
  capital : ∀ c ∈ e.tag.toList, isCapital c = true
  attributes : ∀ a ∈ e.attributes.entries, a.Proper
  names : (e.attributes.entries.map (·.name)).Nodup

/-- Whether an element may stand at the top of a document, or right inside another element. -/
def Element.Belongs (e : Element) : Option Element → Prop
  | none => e.tag = "HTML"
  | some parent => parent.tag = "HTML" → e.tag = "HEAD" ∨ e.tag = "BODY"

/-! ## Canonical trees -/

namespace Tree

/-- The raw text element that a node is, if any. -/
def rawText? (t : Tree) (id : NodeId) : Option RawText :=
  (t.tag? id).bind RawText.ofTag?

/-- The node is the document or below it. -/
def Reached (t : Tree) (id : NodeId) : Prop :=
  id = root ∨ t.Above root id

/-- What the nodes of a document are like that is just as its markup says. -/
structure Canonical (t : Tree) : Prop where
  linked : t.Linked
  document : t.content? root = some .document
  html : ∃ before html after, t.children root = before ++ html :: after ∧
    (∀ id ∈ before ++ after, (t.text? id).isSome = true) ∧ t.tag? html = some "HTML"
  element : ∀ id e, t.Reached id → t.element? id = some e → e.Proper
  text : ∀ id s, t.Reached id → t.text? id = some s → s ≠ ""
  apart : ∀ id, t.Reached id →
    (t.children id).IsChain fun a b => ¬ ((t.text? a).isSome = true ∧ (t.text? b).isSome = true)
  void : ∀ id e, t.Reached id → t.element? id = some e → isVoid e.tag = true → t.children id = []
  sections : ∀ id child tag, t.Reached id → t.tag? id = some "HTML" → child ∈ t.children id →
    t.tag? child = some tag → tag = "HEAD" ∨ tag = "BODY"
  raw : ∀ id e, t.Reached id → t.rawText? id = some e → t.children id = [] ∨
    ∃ child s, t.children id = [child] ∧ t.text? child = some s ∧ e.Unclosed s.toList
  plain : ∀ id child s, t.Reached id → t.rawText? id = none → child ∈ t.children id →
    t.text? child = some s → Plain s.toList

/-- What is left of that when texts may be side by side, and tags may begin in them. -/
structure Regular (t : Tree) : Prop where
  linked : t.Linked
  element : ∀ id e, t.Reached id → t.element? id = some e → e.Proper
  belongs : ∀ id child e, t.Reached id → child ∈ t.children id → t.element? child = some e →
    e.Belongs (t.element? id)
  text : ∀ id s, t.Reached id → t.text? id = some s → s ≠ ""
  void : ∀ id e, t.Reached id → t.element? id = some e → isVoid e.tag = true → t.children id = []
  raw : ∀ id e, t.Reached id → t.rawText? id = some e → t.children id = [] ∨
    ∃ child s, t.children id = [child] ∧ t.text? child = some s ∧ e.Unclosed s.toList

end Tree

/-! ## Proper forests -/

namespace Forest

/-- The forest does not begin with a text. -/
def Apart (f : Forest) : Prop :=
  ∀ s rest, f ≠ .text s rest

/-- What the content of an element is like, or at the top of a document (`none`). -/
inductive Proper : Option Element → Forest → Prop where
  | nil {parent} : Proper parent .nil
  | text {parent s rest} : s ≠ "" → Plain s.toList → rest.Apart → Proper parent rest →
    Proper parent (.text s rest)
  | element {parent e inside rest} : e.Proper → e.Belongs parent → RawText.ofTag? e.tag = none →
    (isVoid e.tag = true → inside = .nil) → Proper (some e) inside → Proper parent rest →
    Proper parent (.element e inside rest)
  | raw {parent e r inside rest} : e.Proper → e.Belongs parent → RawText.ofTag? e.tag = some r →
    (inside = .nil ∨ ∃ s, s ≠ "" ∧ r.Unclosed s.toList ∧ inside = .text s .nil) →
    Proper parent rest → Proper parent (.element e inside rest)

/-- No tag begins in the texts, but for those in raw text elements. -/
def Legible : Forest → Prop
  | .nil => True
  | .text s rest => Plain s.toList ∧ rest.Legible
  | .element e inside rest => (RawText.ofTag? e.tag = none → inside.Legible) ∧ rest.Legible

theorem Apart.prepend {f : Forest} (h : f.Apart) (s : String) : f.prepend s = .text s f := by
  cases f with
  | text s' rest => exact absurd rfl (h s' rest)
  | _ => rfl

theorem Legible.of_prepend {f : Forest} {s : String} (h : (f.prepend s).Legible) : f.Legible := by
  cases f with
  | text s' rest =>
    refine ⟨h.1.part ?_, h.2⟩
    rw [String.toList_append]
    exact (List.suffix_append _ _).isInfix
  | _ => exact h.2

theorem Proper.prepend {parent : Option Element} {f : Forest} {s : String} (h : Proper parent f)
    (hs : s ≠ "") (hlegible : (f.prepend s).Legible) : Proper parent (f.prepend s) := by
  cases h with
  | text hs' hplain hapart hrest =>
    exact .text (fun hnil => hs (String.append_eq_empty_iff.mp hnil).1) hlegible.1 hapart hrest
  | nil => exact .text hs hlegible.1 (by simp [Apart]) .nil
  | element he hbelongs hr hvoid hinside hrest =>
    exact .text hs hlegible.1 (by simp [Apart]) (.element he hbelongs hr hvoid hinside hrest)
  | raw he hbelongs hr hinside hrest =>
    exact .text hs hlegible.1 (by simp [Apart]) (.raw he hbelongs hr hinside hrest)

end Forest

namespace Tree

variable {t : Tree} {low : Nat} {f : Forest} {ids : List NodeId}

theorem Reached.child (hl : t.Linked) {p c : NodeId} (h : t.Reached p) (hc : c ∈ t.children p) :
    t.Reached c := by
  have hparent := (hl.mem_children p c).mp hc
  rcases h with rfl | h
  · exact .inr (.single hparent)
  · exact .inr (.tail h hparent)

theorem text?_of_content? {id : NodeId} {s : String} (h : t.content? id = some (.text s)) :
    t.text? id = some s :=
  text?_eq_some.mpr h

/-- A forest begins with a text only where the nodes do. -/
theorem Holds.apart (h : t.Holds low f ids)
    (hhead : ∀ id, ids.head? = some id → ¬ (t.text? id).isSome = true) : f.Apart := by
  rintro s rest rfl
  cases h with
  | text _ hc _ _ => exact hhead _ rfl (by rw [text?_of_content? hc]; rfl)

theorem Holds.eq_nil (h : t.Holds low f []) : f = .nil := by
  cases h
  rfl

theorem Holds.eq_text {id : NodeId} {s : String} (h : t.Holds low f [id])
    (hs : t.text? id = some s) : f = .text s .nil := by
  rw [text?_eq_some] at hs
  cases h with
  | text _ hc _ hrest =>
    cases hs.symm.trans hc
    rw [hrest.eq_nil]
  | element _ hc _ _ => cases hs.symm.trans hc

theorem rawText?_of_content? {id : NodeId} {e : Element} (h : t.content? id = some (.element e)) :
    t.rawText? id = RawText.ofTag? e.tag := by
  rw [rawText?, tag?, element?_eq_some.mpr h, Option.map_some, Option.bind_some]

/-- Only the document has children and is no element. -/
theorem Linked.eq_root_of_reached (hl : t.Linked) {p id : NodeId} (hp : t.Reached p)
    (hid : id ∈ t.children p) (hnone : t.element? p = none) : p = root := by
  rcases hp with rfl | hp
  · rfl
  · exfalso
    obtain ⟨q, hq, -⟩ := above_iff.mp hp
    obtain ⟨c, hcontent⟩ := exists_content? (lt_size_of_parent? hq)
    cases c with
    | document => cases (hl.document_top p hcontent).symm.trans hq
    | element e => cases (element?_eq_some.mpr hcontent).symm.trans hnone
    | text s =>
      rw [hl.text_leaf p s (text?_of_content? hcontent)] at hid
      cases hid

/-- Where no tag begins in a text, none does in the forest. -/
theorem Linked.legible (hl : t.Linked)
    (hplain : ∀ id child s, t.Reached id → t.rawText? id = none → child ∈ t.children id →
      t.text? child = some s → Plain s.toList)
    {p : NodeId} (h : t.Holds low f ids) (hp : t.Reached p) (hraw : t.rawText? p = none)
    (hsub : ids ⊆ t.children p) : f.Legible := by
  induction h generalizing p with
  | nil => trivial
  | text _ hcontent _ _ ih =>
    obtain ⟨hid, hsub⟩ := List.cons_subset.mp hsub
    exact ⟨hplain p _ _ hp hraw hid (text?_of_content? hcontent), ih hp hraw hsub⟩
  | element _ hcontent _ _ ihinside ihrest =>
    obtain ⟨hid, hsub⟩ := List.cons_subset.mp hsub
    refine ⟨fun hr => ?_, ihrest hp hraw hsub⟩
    exact ihinside (hp.child hl hid) (by rw [rawText?_of_content? hcontent, hr]) (List.Subset.refl _)

/-- Below the nodes of a regular tree the forests are proper when adjacent texts are joined, unless
a tag begins in them then. -/
theorem Regular.proper (hr : t.Regular) {p : NodeId} (h : t.Holds low f ids) (hp : t.Reached p)
    (hraw : t.rawText? p = none) (hsub : ids ⊆ t.children p) (hlegible : f.joined.Legible) :
    f.joined.Proper (t.element? p) := by
  induction h generalizing p with
  | nil => exact .nil
  | @text s rest id ids _ hcontent _ _ ih =>
    obtain ⟨hid, hsub⟩ := List.cons_subset.mp hsub
    have hs := hr.text id s (hp.child hr.linked hid) (text?_of_content? hcontent)
    exact (ih hp hraw hsub hlegible.of_prepend).prepend hs hlegible
  | @element e inside rest id ids _ hcontent hinside _ ihinside ihrest =>
    obtain ⟨hid, hsub⟩ := List.cons_subset.mp hsub
    have hreached := hp.child hr.linked hid
    have he : t.element? id = some e := element?_eq_some.mpr hcontent
    have hrawid := rawText?_of_content? hcontent
    have hproper := hr.element id e hreached he
    have hbelongs := hr.belongs p id e hp hid he
    have hrest := ihrest hp hraw hsub hlegible.2
    cases htag : RawText.ofTag? e.tag with
    | none =>
      refine .element hproper hbelongs htag (fun hvoid => ?_) ?_ hrest
      · rw [hr.void id e hreached he hvoid] at hinside
        rw [hinside.eq_nil, Forest.joined]
      · rw [← he]
        exact ihinside hreached (by rw [hrawid, htag]) (List.Subset.refl _) (hlegible.1 htag)
    | some r =>
      refine .raw hproper hbelongs htag ?_ hrest
      rcases hr.raw id r hreached (by rw [hrawid, htag]) with hnil | ⟨child, s, hone, hs, hunclosed⟩
      · rw [hnil] at hinside
        exact .inl (by rw [hinside.eq_nil, Forest.joined])
      · have hchild : t.Reached child := hreached.child hr.linked (by rw [hone]; simp)
        rw [hone] at hinside
        refine .inr ⟨s, hr.text child s hchild hs, hunclosed, ?_⟩
        rw [hinside.eq_text hs]
        rfl

namespace Canonical

variable (hc : t.Canonical) {p id : NodeId}
include hc

theorem belongs (hp : t.Reached p) {e : Element} (hid : id ∈ t.children p)
    (he : t.element? id = some e) : e.Belongs (t.element? p) := by
  have htag : t.tag? id = some e.tag := by rw [tag?, he, Option.map_some]
  cases hparent : t.element? p with
  | some parent =>
    intro hhtml
    exact hc.sections p id e.tag hp (by rw [tag?, hparent, Option.map_some, hhtml]) hid htag
  | none =>
    obtain ⟨before, html, after, hchildren, htexts, hhtml⟩ := hc.html
    rw [hc.linked.eq_root_of_reached hp hid hparent, hchildren, List.mem_append, List.mem_cons] at hid
    by_cases heq : id = html
    · rw [heq, hhtml] at htag
      exact (Option.some.inj htag).symm
    · have hmem : id ∈ before ++ after :=
        List.mem_append.mpr (hid.imp_right fun h => h.resolve_left heq)
      obtain ⟨s, hs⟩ := Option.isSome_iff_exists.mp (htexts id hmem)
      cases (text?_eq_some.mp hs).symm.trans (element?_eq_some.mp he)

theorem regular : t.Regular where
  linked := hc.linked
  element := hc.element
  belongs _ _ _ hp hid he := hc.belongs hp hid he
  text := hc.text
  void := hc.void
  raw := hc.raw

/-- There is nothing to join below the nodes of a canonical tree. -/
theorem joined_eq (h : t.Holds low f ids) (hp : t.Reached p) (hsub : ids <:+ t.children p) :
    f.joined = f := by
  induction h generalizing p with
  | nil => rfl
  | @text s rest id ids _ hcontent _ hrest ih =>
    have hchain := (hc.apart p hp).suffix hsub
    have hapart : rest.Apart := by
      refine hrest.apart fun next hnext hsome => ?_
      obtain ⟨more, rfl⟩ := List.head?_eq_some_iff.mp hnext
      have htext := text?_of_content? hcontent
      exact (List.isChain_cons_cons.mp hchain).1 ⟨by rw [htext]; rfl, hsome⟩
    rw [Forest.joined, ih hp ((List.suffix_cons id ids).trans hsub), hapart.prepend]
  | @element e inside rest id ids _ hcontent _ _ ihinside ihrest =>
    have hreached := hp.child hc.linked (hsub.subset List.mem_cons_self)
    rw [Forest.joined, ihinside hreached (List.suffix_refl _),
      ihrest hp ((List.suffix_cons id ids).trans hsub)]

/-- Below the nodes of a canonical tree the forests are proper. -/
theorem proper (h : t.Holds low f ids) (hp : t.Reached p) (hraw : t.rawText? p = none)
    (hsub : ids <:+ t.children p) : f.Proper (t.element? p) := by
  have hjoined := hc.joined_eq h hp hsub
  have hlegible : f.joined.Legible := by
    rw [hjoined]
    exact hc.linked.legible hc.plain h hp hraw hsub.subset
  rw [← hjoined]
  exact hc.regular.proper h hp hraw hsub.subset hlegible

/-- A canonical tree is a proper forest with one element at the top. -/
theorem exists_proper : ∃ f, t.Holds 0 f (t.children root) ∧ f.Proper none ∧ f.tops.length = 1 := by
  obtain ⟨f, hf⟩ := hc.linked.exists_forest root
  have hroot : t.element? root = none := by
    rw [element?, hc.document]
  have hproper := hc.proper hf (.inl rfl) (by rw [rawText?, tag?, hroot]; rfl) (List.suffix_refl _)
  rw [hroot] at hproper
  refine ⟨f, hf, hproper, ?_⟩
  obtain ⟨before, html, after, hchildren, htexts, hhtml⟩ := hc.html
  have hnone : ∀ l : List NodeId, (∀ id ∈ l, id ∈ before ++ after) → l.filterMap t.element? = [] := by
    intro l hl
    rw [List.filterMap_eq_nil_iff]
    intro id hid
    obtain ⟨s, hs⟩ := Option.isSome_iff_exists.mp (htexts id (hl id hid))
    rw [element?, text?_eq_some.mp hs]
  obtain ⟨e, he, -⟩ := Option.map_eq_some_iff.mp hhtml
  rw [← hf.tops_eq, hchildren, List.filterMap_append, List.filterMap_cons_some he,
    hnone before (by simp +contextual), hnone after (by simp +contextual)]
  rfl

end Canonical

end Tree

end Hypertext
