/-
What rendering keeps when its result is parsed again. Ignored end tags leave
texts side by side, which markup does not tell from one text. As long as no tag
begins in the joined texts, a document comes back as it was but for the joining,
and its rendering is the same again; where one does begin, the document does
not come back.
-/
import Hypertext.Proofs.Markup.RoundTrip
import Hypertext.Proofs.Markup.Tidy

namespace Hypertext

open Markup

namespace Tree

/-- No value of an attribute holds both kinds of quotes. -/
def Quotable (t : Tree) : Prop :=
  ∀ id e, t.Reached id → t.element? id = some e →
    ∀ a ∈ e.attributes.entries, ¬ ('"' ∈ a.value.toList ∧ '\'' ∈ a.value.toList)

variable {t : Tree}

theorem quotable_of_all
    (h : ∀ id ∈ t.ids, ∀ e ∈ t.element? id, ∀ a ∈ e.attributes.entries,
      ¬ ('"' ∈ a.value.toList ∧ '\'' ∈ a.value.toList)) : t.Quotable := by
  intro id e _ he
  exact h id (mem_ids.mpr (lt_size_of_content? (element?_eq_some.mp he))) e he

/-- Elements of a document in shape stand where its markup would put them. -/
theorem Housed.belongs (h : t.Housed) {p id : NodeId} (hp : t.Reached p) {e : Element}
    (hid : id ∈ t.children p) (he : t.element? id = some e) : e.Belongs (t.element? p) := by
  have htag : t.tag? id = some e.tag := by rw [tag?, he, Option.map_some]
  have hmem : id ∈ t.childElements p := mem_childElements.mpr ⟨hid, e.tag, htag⟩
  cases hparent : t.element? p with
  | none =>
    rw [h.linked.eq_root_of_reached hp hid hparent] at hmem
    have hhtml := h.shaped.html id hmem
    rw [htag] at hhtml
    exact Option.some.inj hhtml
  | some parent =>
    intro hhtml
    have hsection := h.sectioned p (by rw [tag?, hparent, Option.map_some, hhtml]) id hmem
    simpa [htag] using hsection

/-- But for its texts, a parsed document is as its markup says. -/
theorem Tidy.regular (h : t.Tidy) (hhoused : t.Housed) (hquotable : t.Quotable) : t.Regular where
  linked := h.linked
  element id e hp he := by
    have hnamed := h.element id e he
    exact ⟨hnamed.ne, hnamed.capital,
      fun a ha => ⟨hnamed.proper a ha, hquotable id e hp he a ha⟩, hnamed.distinct⟩
  belongs _ _ _ hp hid he := hhoused.belongs hp hid he
  text id s _ hs := h.text id s hs
  void id e _ he hvoid := h.void id e he hvoid
  raw id e _ he := h.raw id e he

theorem rawText?_root (h : t.content? root = some .document) : t.rawText? root = none := by
  rw [rawText?, tag?_document h, Option.bind_none]

/-- No tag begins in the texts of a parsed document, each on its own. -/
theorem Tidy.legible (h : t.Tidy) (hdocument : t.content? root = some .document) {f : Forest}
    (hholds : t.Holds 0 f (t.children root)) : f.Legible := by
  refine h.linked.legible ?_ hholds (.inl rfl) (rawText?_root hdocument) (List.Subset.refl _)
  intro id child s _ hraw hchild hs
  exact h.plain id child s hraw hchild hs

theorem Housed.length_tops (h : t.Housed) (hsome : t.documentElement?.isSome = true) {f : Forest}
    (hholds : t.Holds 0 f (t.children root)) : f.tops.length = 1 := by
  obtain ⟨html, honly, -⟩ := h.exists_root hsome
  have hlength : (t.children root).countP t.isElement = 1 := by
    rw [List.countP_eq_length_filter, ← childElements, honly, List.length_singleton]
  rw [← hholds.tops_eq, List.length_filterMap_eq_countP]
  exact hlength

theorem Linked.outer_root (hl : t.Linked) (hdocument : t.content? root = some .document) {f : Forest}
    (hholds : t.Holds 0 f (t.children root)) : t.outer root = f.written := by
  rw [hl.outer_of_document hdocument, hholds.join_outer hl]

end Tree

namespace Markup

/-- **What rendering keeps.** The rendering of a parsed document, of which no value holds both
kinds of quotes, is parsed again with the same rendering, into the same document but for adjacent
texts, which have become one, just when no tag begins in those texts. -/
theorem rendering_stable_iff {p p' : Parser} {input : String} {t : Tree}
    (hparse : p.parse input = (.ok t, p')) (hquotable : t.Quotable) (q : Parser) :
    ∃ f, t.Holds 0 f (t.children Tree.root) ∧
      (f.joined.Legible ↔ ∃ t' q', q.parse (t.outer Tree.root) = (.ok t', q') ∧
        t'.outer Tree.root = t.outer Tree.root ∧ t'.Holds 0 f.joined (t'.children Tree.root)) := by
  obtain ⟨htidy, hhoused, hsome⟩ := tidy_of_parse hparse
  obtain ⟨f, hholds⟩ := htidy.linked.exists_forest Tree.root
  refine ⟨f, hholds, fun hlegible => ?_, ?_⟩
  · have hproper := (htidy.regular hhoused hquotable).proper hholds (.inl rfl)
      (Tree.rawText?_root hhoused.document) (List.Subset.refl _) hlegible
    have hnone : t.element? Tree.root = none := by rw [Tree.element?, hhoused.document]
    rw [hnone] at hproper
    have htops : f.joined.tops.length = 1 := by
      rw [Forest.tops_joined, hhoused.length_tops hsome hholds]
    obtain ⟨t', q', hagain, -, hl, hdocument, hholds'⟩ := parse_written hproper htops q
    have houter : t.outer Tree.root = f.joined.written := by
      rw [Forest.written_joined, htidy.linked.outer_root hhoused.document hholds]
    refine ⟨t', q', ?_, ?_, hholds'⟩
    · rw [houter, hagain]
    · rw [houter, hl.outer_root hdocument hholds']
  · rintro ⟨t', q', hagain, -, hholds'⟩
    obtain ⟨htidy', hhoused', -⟩ := tidy_of_parse hagain
    exact htidy'.legible hhoused'.document hholds'

/-- An end tag is ignored inside the paragraph, and the texts around it are one in the second
document. -/
theorem rendering_stable_iff_parted :
    let outcome := ({} : Parser).parse "<p a='\"'>x</i>y"
    ∃ t, outcome.1 = .ok t ∧ t.Quotable ∧ ∃ f, t.Holds 0 f (t.children Tree.root) ∧
      (f.joined.Legible ↔ ∃ t' q', ({} : Parser).parse (t.outer Tree.root) = (.ok t', q') ∧
        t'.outer Tree.root = t.outer Tree.root ∧ t'.Holds 0 f.joined (t'.children Tree.root)) := by
  intro outcome
  have hquotable : ∃ t ∈ outcome.1.toOption, ∀ id ∈ t.ids, ∀ e ∈ t.element? id,
      ∀ a ∈ e.attributes.entries, ¬ ('"' ∈ a.value.toList ∧ '\'' ∈ a.value.toList) := by
    decide +kernel
  obtain ⟨t, ht, hquotable⟩ := hquotable
  have hquotable := Tree.quotable_of_all hquotable
  rcases houtcome : outcome with ⟨_ | t', p'⟩ <;> rw [houtcome] at ht <;> cases ht
  exact ⟨t, rfl, hquotable, rendering_stable_iff houtcome hquotable {}⟩

/-- The texts around an ignored end tag begin a tag when they are joined, and that one breaks off. -/
theorem not_rendering_stable :
    ¬ ∀ input t p', ({} : Parser).parse input = (.ok t, p') → t.Quotable →
      ∃ t' q', ({} : Parser).parse (t.outer Tree.root) = (.ok t', q') ∧
        t'.outer Tree.root = t.outer Tree.root := by
  intro hstable
  have hfirst : ∃ t ∈ (({} : Parser).parse "<</x>b \">").1.toOption,
      t.outer Tree.root = "<b \"><html></html>" ∧
        ∀ id ∈ t.ids, ∀ e ∈ t.element? id, e.attributes.entries = [] := by
    decide +kernel
  have hsecond : (({} : Parser).parse "<b \"><html></html>").1.toOption = none := by
    decide +kernel
  obtain ⟨t, ht, houter, hvalues⟩ := hfirst
  rcases hparse : ({} : Parser).parse "<</x>b \">" with ⟨_ | t', p'⟩ <;>
    rw [hparse] at ht <;> cases ht
  have hquotable : t.Quotable := by
    refine Tree.quotable_of_all fun id hid e he a ha => ?_
    rw [hvalues id hid e he] at ha
    cases ha
  obtain ⟨t', q', hagain, -⟩ := hstable _ t p' hparse hquotable
  rw [houter] at hagain
  rw [hagain] at hsecond
  cases hsecond

end Markup

end Hypertext
