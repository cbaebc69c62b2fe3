/-
What every parsed document is like, however odd its source: its elements have
proper names, its void elements are empty, its raw text elements hold at most
one text that does not close them, and no tag begins in any other text. Such a
tree is tidy (`Tree.Tidy`); what it lacks to be canonical is that texts may be
side by side, and that a value may hold both kinds of quotes.

Nodes are only put where there is room for more (`Tree.Roomy`). The open
elements have room, but for a raw text element, which is always the innermost:
that is what the phase of the tokens is matched with (`Room`).
-/
import Hypertext.Proofs.Markup.Orderly
import Hypertext.Proofs.Markup.Rooting
import Hypertext.Proofs.Tree.Attributes

namespace Hypertext

open Markup

/-! ## Names -/

/-- The tag is of capitals and digits; the attributes are of proper and different names. -/
structure Element.Named (e : Element) : Prop where
  ne : e.tag ≠ ""
  capital : ∀ c ∈ e.tag.toList, isCapital c = true
  proper : ∀ a ∈ e.attributes.entries, ProperName a.name
  distinct : (e.attributes.entries.map (·.name)).Nodup

theorem Element.named_ofSource {tag : String} {attributes : List Attribute} (hne : tag ≠ "")
    (hcapital : ∀ c ∈ tag.toList, isCapital c = true)
    (hattributes : ∀ a ∈ attributes, ProperName a.name) :
    (Element.ofSource tag attributes).Named ∧ (Element.ofSource tag attributes).tag = tag := by
  have htag : tag.toUpper = tag := by rw [← Case.toUpper_toLower hcapital, Case.toUpper_toUpper]
  obtain ⟨hmem, hdistinct⟩ := Attributes.ofList_spec attributes
  refine ⟨⟨?_, ?_, fun a ha => hattributes a (hmem a ha), hdistinct⟩, htag⟩
  · change tag.toUpper ≠ ""
    rw [htag]
    exact hne
  · change ∀ c ∈ tag.toUpper.toList, _
    rw [htag]
    exact hcapital

/-! ## Tidy trees -/

namespace Tree

/-- What the nodes of a parsed document are like. -/
structure Tidy (t : Tree) : Prop where
  linked : t.Linked
  element : ∀ id e, t.element? id = some e → e.Named
  text : ∀ id s, t.text? id = some s → s ≠ ""
  void : ∀ id e, t.element? id = some e → isVoid e.tag = true → t.children id = []
  raw : ∀ id e, t.rawText? id = some e → t.children id = [] ∨
    ∃ child s, t.children id = [child] ∧ t.text? child = some s ∧ e.Unclosed s.toList
  plain : ∀ id child s, t.rawText? id = none → child ∈ t.children id →
    t.text? child = some s → Plain s.toList

/-- The node may have more children of any kind. -/
def Roomy (t : Tree) (id : NodeId) : Prop :=
  ∀ tag, t.tag? id = some tag → isVoid tag = false ∧ RawText.ofTag? tag = none

variable {t t' : Tree} {parent child id : NodeId}

theorem rawText?_congr (h : t'.content? id = t.content? id) : t'.rawText? id = t.rawText? id := by
  rw [rawText?, rawText?, tag?_congr h]

theorem Roomy.congr (h : t.Roomy id) (htag : t'.tag? id = t.tag? id) : t'.Roomy id := by
  rw [Roomy, htag]
  exact h

theorem roomy_of_tag? {tag : String} (h : t.tag? id = some tag) (hvoid : isVoid tag = false)
    (hraw : RawText.ofTag? tag = none) : t.Roomy id := by
  intro tag' htag'
  rw [h, Option.some.injEq] at htag'
  rw [← htag']
  exact ⟨hvoid, hraw⟩

theorem roomy_of_untagged (h : t.tag? id = none) : t.Roomy id := by
  intro tag htag
  rw [h] at htag
  cases htag

theorem Roomy.rawText? (h : t.Roomy id) : t.rawText? id = none := by
  rw [Tree.rawText?]
  cases htag : t.tag? id with
  | none => rfl
  | some tag => exact (h tag htag).2

theorem Roomy.not_void (h : t.Roomy id) {e : Element} (he : t.element? id = some e) :
    isVoid e.tag = false :=
  (h e.tag (by rw [tag?, he, Option.map_some])).1

theorem tidy_empty : empty.Tidy where
  linked := linked_empty
  element id e h := by
    cases content?_empty (element?_eq_some.mp h)
  text id s h := by
    cases content?_empty (text?_eq_some.mp h)
  void id e h _ := children_empty id
  raw id e h := .inl (children_empty id)
  plain id child s _ hchild _ := by
    rw [children_empty] at hchild
    cases hchild

theorem Tidy.create (h : t.Tidy) {content : Content} (helement : ∀ e, content = .element e → e.Named)
    (htext : ∀ s, content = .text s → s ≠ "") : (t.create content).2.Tidy where
  linked := h.linked.create content
  element id e he := by
    rw [element?_eq_some, content?_create] at he
    split at he
    · exact helement e (Option.some.inj he)
    · exact h.element id e (element?_eq_some.mpr he)
  text id s hs := by
    rw [text?_eq_some, content?_create] at hs
    split at hs
    · exact htext s (Option.some.inj hs)
    · exact h.text id s (text?_eq_some.mpr hs)
  void id e he hvoid := by
    rw [children_create]
    rw [element?_eq_some, content?_create] at he
    split at he
    · next hid => rw [hid, children_size]
    · exact h.void id e (element?_eq_some.mpr he) hvoid
  raw id e he := by
    rw [children_create]
    by_cases hid : id.index < t.size
    · rw [rawText?_congr (content?_create_of_lt content hid)] at he
      rcases h.raw id e he with hnil | ⟨child, s, hone, hs, hunclosed⟩
      · exact .inl hnil
      · have hchild : child ∈ t.children id := by rw [hone]; simp
        refine .inr ⟨child, s, hone, ?_, hunclosed⟩
        rw [text?_congr (content?_create_of_lt content (h.linked.child_lt_size hchild)), hs]
    · exact .inl (children_eq_nil_of_size_le (Nat.le_of_not_lt hid))
  plain id child s hraw hchild hs := by
    rw [children_create] at hchild
    rw [rawText?_congr (content?_create_of_lt content (lt_size_of_mem_children hchild))] at hraw
    rw [text?_congr (content?_create_of_lt content (h.linked.child_lt_size hchild))] at hs
    exact h.plain id child s hraw hchild hs

/-- What is attached, and was nowhere before, is one more child of its parent. -/
theorem children_attach_free (hf : t.Fits parent child) (hfree : t.parent? child = none) (id : NodeId) :
    (t.attach parent child).children id =
      if id = parent then t.children id ++ [child] else t.children id := by
  rw [children_attach hf.parent_lt_size, children_remove, hfree]
  simp

theorem Tidy.attach (h : t.Tidy) (hf : t.Fits parent child) (hfree : t.parent? child = none)
    (hroom : t.Roomy parent) (hplain : ∀ s, t.text? child = some s → Plain s.toList) :
    (t.attach parent child).Tidy where
  linked := h.linked.attach hf
  element id e he := h.element id e (by rwa [element?_congr (content?_attach _ _ _ id)] at he)
  text id s hs := h.text id s (by rwa [text?_congr (content?_attach _ _ _ id)] at hs)
  void id e he hvoid := by
    rw [element?_congr (content?_attach _ _ _ id)] at he
    rw [children_attach_free hf hfree, if_neg, h.void id e he hvoid]
    rintro rfl
    rw [hroom.not_void he] at hvoid
    cases hvoid
  raw id e he := by
    rw [rawText?_congr (content?_attach _ _ _ id)] at he
    have hne : id ≠ parent := by
      rintro rfl
      rw [hroom.rawText?] at he
      cases he
    simp only [children_attach_free hf hfree, if_neg hne, text?_congr (content?_attach _ _ _ _)]
    exact h.raw id e he
  plain id x s hraw hx hs := by
    rw [rawText?_congr (content?_attach _ _ _ id)] at hraw
    rw [text?_congr (content?_attach _ _ _ x)] at hs
    rw [children_attach_free hf hfree] at hx
    split at hx
    · rcases List.mem_append.mp hx with hx | hx
      · exact h.plain id x s hraw hx hs
      · rw [List.mem_singleton.mp hx] at hs
        exact hplain s hs
    · exact h.plain id x s hraw hx hs

/-- An empty raw text element takes a text. -/
theorem Tidy.attach_raw (h : t.Tidy) (hf : t.Fits parent child) (hfree : t.parent? child = none)
    {r : RawText} (hraw : t.rawText? parent = some r) (hnil : t.children parent = []) {s : String}
    (hs : t.text? child = some s) (hunclosed : r.Unclosed s.toList) :
    (t.attach parent child).Tidy where
  linked := h.linked.attach hf
  element id e he := h.element id e (by rwa [element?_congr (content?_attach _ _ _ id)] at he)
  text id s hs := h.text id s (by rwa [text?_congr (content?_attach _ _ _ id)] at hs)
  void id e he hvoid := by
    rw [element?_congr (content?_attach _ _ _ id)] at he
    rw [children_attach_free hf hfree, if_neg, h.void id e he hvoid]
    rintro rfl
    rw [rawText?, tag?, he, Option.map_some, Option.bind_some] at hraw
    rw [isVoid_of_raw hraw] at hvoid
    cases hvoid
  raw id e he := by
    rw [rawText?_congr (content?_attach _ _ _ id)] at he
    simp only [children_attach_free hf hfree, text?_congr (content?_attach _ _ _ _)]
    split
    · next hid =>
      rw [hid, hraw, Option.some.injEq] at he
      rw [hid, hnil, ← he]
      exact .inr ⟨child, s, rfl, hs, hunclosed⟩
    · exact h.raw id e he
  plain id x s hrawid hx hs := by
    rw [rawText?_congr (content?_attach _ _ _ id)] at hrawid
    rw [text?_congr (content?_attach _ _ _ x)] at hs
    rw [children_attach_free hf hfree, if_neg] at hx
    · exact h.plain id x s hrawid hx hs
    · rintro rfl
      rw [hraw] at hrawid
      cases hrawid

/-- What stands above an element has room. -/
theorem Tidy.roomy_of_above (h : t.Tidy) {e : Element} (he : t.element? id = some e)
    (habove : t.Above parent id) : t.Roomy parent := by
  obtain ⟨child, hparent, hchild⟩ := Relation.TransGen.head'_iff.mp habove
  have hmem : child ∈ t.children parent := (h.linked.mem_children parent child).mpr hparent
  have hnotext : ∀ s, t.text? child ≠ some s := by
    intro s hs
    rcases Relation.ReflTransGen.cases_head hchild with heq | ⟨next, hnext, -⟩
    · rw [heq] at hs
      cases (text?_eq_some.mp hs).symm.trans (element?_eq_some.mp he)
    · have hbelow := (h.linked.mem_children child next).mpr hnext
      rw [h.linked.text_leaf child s hs] at hbelow
      cases hbelow
  intro tag htag
  obtain ⟨e', he', rfl⟩ := Option.map_eq_some_iff.mp htag
  refine ⟨Bool.eq_false_iff.mpr fun hvoid => ?_, Option.eq_none_iff_forall_ne_some.mpr fun r hraw => ?_⟩
  · rw [h.void parent e' he' hvoid] at hmem
    cases hmem
  · rcases h.raw parent r (by rw [rawText?, htag, Option.bind_some, hraw]) with
      hnil | ⟨child', s, hone, hs, -⟩
    · rw [hnil] at hmem
      cases hmem
    · rw [hone, List.mem_singleton] at hmem
      exact hnotext s (hmem ▸ hs)

/-! ### New elements -/

theorem named_wrapper {tag : String} (htag : tag = "HTML" ∨ tag = "BODY") :
    (Element.ofTag tag).Named ∧ isVoid (Element.ofTag tag).tag = false ∧
      RawText.ofTag? (Element.ofTag tag).tag = none := by
  have hcapital : (Element.ofTag tag).tag.toList.all isCapital = true := by
    rcases htag with rfl | rfl <;> decide +kernel
  refine ⟨⟨?_, List.all_eq_true.mp hcapital, by simp [Element.ofTag], by simp [Element.ofTag]⟩, ?_⟩ <;>
    rcases htag with rfl | rfl <;> decide +kernel

/-- The tree is tidy, and `p` has room for a node that is to come there, a new element. -/
structure Welcoming (child : NodeId) (e : Element) (p : NodeId) (t : Tree) : Prop where
  tidy : t.Tidy
  room : t.Roomy p
  fits : t.Fits p child
  free : t.parent? child = none
  leaf : t.children child = []
  content : t.content? child = some (.element e)

theorem Tidy.wrapper (h : t.Tidy) {c : Content} (hc : t.content? parent = some c)
    (htext : ∀ s, c ≠ .text s) (hroom : t.Roomy parent) {tag : String}
    (htag : tag = "HTML" ∨ tag = "BODY") :
    (t.wrapper parent tag).2.Tidy ∧ (t.wrapper parent tag).2.Roomy (t.wrapper parent tag).1 := by
  obtain ⟨hnamed, hvoid, hraw⟩ := named_wrapper htag
  have hfits := fits_create h.linked (show Content.element (.ofTag tag) ≠ .document by simp) hc htext
  rw [wrapper_eq]
  constructor
  · refine (h.create (by simpa using hnamed) (by simp)).attach hfits ?_ ?_ ?_
    · rw [parent?_create, parent?_size]
    · exact hroom.congr (tag?_create_of_lt _ (lt_size_of_content? hc))
    · intro s hs
      rw [text?_eq_some, content?_create, if_pos rfl] at hs
      cases hs
  · refine roomy_of_tag? ?_ hvoid hraw
    rw [tag?_congr (content?_attach _ _ _ _), tag?_create_self]

theorem Welcoming.wrapper {e : Element} {p : NodeId} (h : Welcoming child e p t) {tag : String}
    (htag : tag = "HTML" ∨ tag = "BODY") :
    Welcoming child e (t.wrapper p tag).1 (t.wrapper p tag).2 := by
  obtain ⟨c, hc, htext⟩ := h.fits.holds
  have hchild := h.fits.child_lt_size
  obtain ⟨htidy, hroom⟩ := h.tidy.wrapper hc htext h.room htag
  obtain ⟨hgrown, -, -, -, -⟩ :=
    h.tidy.linked.grown_attach (.element (.ofTag tag)) (by simp) hc htext
  refine ⟨htidy, hroom, (h.tidy.linked.wrapper h.fits tag).2, ?_, ?_, ?_⟩
  · rw [(begins_wrapper t p tag).parent _ hchild, h.free]
  · rw [wrapper_eq, hgrown.children _ hchild (Ne.symm h.fits.ne), h.leaf]
  · rw [content?_wrapper_of_lt _ hchild, h.content]

/-- A new element is appended where there is room. -/
theorem Tidy.append_element (h : t.Tidy) {c : Content} (hc : t.content? parent = some c)
    (htext : ∀ s, c ≠ .text s) (hroom : t.Roomy parent) {e : Element} (he : e.Named)
    (happend : (t.create (.element e)).2.append parent ⟨t.size⟩ = .ok t') :
    t'.Tidy ∧ t'.children ⟨t.size⟩ = [] := by
  have hnew : (t.create (.element e)).2.content? ⟨t.size⟩ = some (.element e) := by
    rw [content?_create, if_pos rfl]
  have hwelcoming : Welcoming ⟨t.size⟩ e parent (t.create (.element e)).2 := by
    refine ⟨h.create (by simpa using he) (by simp), ?_, fits_create h.linked (by simp) hc htext,
      ?_, ?_, hnew⟩
    · exact hroom.congr (tag?_create_of_lt _ (lt_size_of_content? hc))
    · rw [parent?_create, parent?_size]
    · rw [children_create, children_size]
  have hsheltered := shelter_induction (fun _ _ _ htag h => h.wrapper htag) e.tag hwelcoming
  obtain ⟨-, happend⟩ := (h.linked.create _).append_ok_iff.mp happend
  rw [tag?_create_self] at happend
  rw [happend.2]
  constructor
  · refine hsheltered.tidy.attach hsheltered.fits hsheltered.free hsheltered.room fun s hs => ?_
    rw [text?_eq_some, hsheltered.content] at hs
    cases hs
  · rw [children_attach_free hsheltered.fits hsheltered.free, if_neg (Ne.symm hsheltered.fits.ne),
      hsheltered.leaf]

end Tree

namespace Markup.Growth

/-! ## Growing tidily -/

/-- The open elements have room for what can come in the phase. -/
def Room (t : Tree) (os : List OpenElement) : Phase → Prop
  | .markup => ∀ o ∈ os, t.Roomy o.id
  | .raw e said => ∃ id rest, os = ⟨id, true⟩ :: rest ∧ t.rawText? id = some e ∧
    (said = false → t.children id = []) ∧ ∀ o ∈ rest, t.Roomy o.id

/-- What holds of a growth that nobody watches, after the tokens up to a phase. -/
structure Neat (phase : Phase) (g : Growth Unit) : Prop where
  standing : Standing g.stack g.tree
  housed : g.tree.Housed
  tidy : g.tree.Tidy
  room : Room g.tree g.stack phase

section Steps

variable {g : Growth Unit} {os : List OpenElement} {t t' : Tree} {phase phase' : Phase}

theorem appending_unwatched : unwatched.Appending :=
  fun _ t _ => .refl t

theorem Standing.roomy_keeps (h : Standing os t) (hkeeps : t.Keeps t') {o : OpenElement} (ho : o ∈ os)
    (hroom : t.Roomy o.id) : t'.Roomy o.id := by
  obtain ⟨c, hc, -⟩ := h.holds o ho
  exact hroom.congr (hkeeps.tag?_eq (Tree.lt_size_of_content? hc))

theorem Neat.room_innermost (h : Neat .markup g) : g.tree.Roomy g.innermost := by
  rw [innermost_eq_top]
  cases hs : g.stack with
  | nil => exact Tree.roomy_of_untagged (Tree.tag?_document h.standing.root)
  | cons o os => exact h.room o (by simp [hs])

theorem Neat.takeText (h : Neat .markup g) (index : Nat) {s : String} (hs : s ≠ "")
    (hplain : Plain s.toList) : Neat .markup (g.takeText unwatched index s) := by
  have hraised := raised_takeText appending_unwatched index s g
  have hhoused := h.housed.raised hraised
  have hkeeps := hraised.keeps h.standing.linked
  obtain ⟨c, hc, htext⟩ := h.standing.top_holds
  rw [← innermost_eq_top] at hc
  rw [takeText_eq h.standing] at hhoused hkeeps ⊢
  refine ⟨h.standing.keeps hhoused.linked hkeeps, hhoused, ?_,
    fun o ho => h.standing.roomy_keeps hkeeps ho (h.room o ho)⟩
  refine (h.tidy.create (by simp) (by simpa using hs)).attach
    (Tree.fits_create h.standing.linked (by simp) hc htext) ?_ ?_ ?_
  · rw [Tree.parent?_create, Tree.parent?_size]
  · exact h.room_innermost.congr (Tree.tag?_create_of_lt _ (Tree.lt_size_of_content? hc))
  · intro s' hs'
    rw [Tree.text?_eq_some, Tree.content?_create, if_pos rfl] at hs'
    cases hs'
    exact hplain

theorem Neat.takeText_raw {e : RawText} (h : Neat (.raw e false) g) (index : Nat) {s : String}
    (hs : s ≠ "") (hunclosed : e.Unclosed s.toList) :
    Neat (.raw e true) (g.takeText unwatched index s) := by
  have hraised := raised_takeText appending_unwatched index s g
  have hhoused := h.housed.raised hraised
  have hkeeps := hraised.keeps h.standing.linked
  obtain ⟨c, hc, htext⟩ := h.standing.top_holds
  obtain ⟨id, rest, hstack, hraw, hnil, hrest⟩ := h.room
  have hinner : g.innermost = id := by rw [innermost_eq_top, hstack, top_cons]
  rw [← innermost_eq_top] at hc
  rw [takeText_eq h.standing] at hhoused hkeeps ⊢
  have hknown := Tree.lt_size_of_content? hc
  refine ⟨h.standing.keeps hhoused.linked hkeeps, hhoused, ?_, id, rest, hstack, ?_, by simp, ?_⟩
  · refine (h.tidy.create (by simp) (by simpa using hs)).attach_raw
      (Tree.fits_create h.standing.linked (by simp) hc htext) ?_ (r := e) ?_ ?_ (s := s) ?_ hunclosed
    · rw [Tree.parent?_create, Tree.parent?_size]
    · rw [Tree.rawText?_congr (Tree.content?_create_of_lt _ hknown), hinner, hraw]
    · rw [Tree.children_create, hinner, hnil rfl]
    · rw [Tree.text?_eq_some, Tree.content?_create, if_pos rfl]
  · rw [hinner] at hknown
    rw [← hraw]
    exact congrArg (·.bind RawText.ofTag?) (hkeeps.tag?_eq hknown)
  · intro o ho
    exact h.standing.roomy_keeps hkeeps (by rw [hstack]; exact .tail _ ho) (hrest o ho)

/-! ### Start tags -/

theorem roomy_section {id : NodeId} (h : t.tag? id = some "HTML" ∨ t.tag? id = some "BODY") :
    t.Roomy id := by
  rcases h with h | h <;> exact Tree.roomy_of_tag? h (by decide +kernel) (by decide +kernel)

/-- What comes after the root goes into the `BODY` or the `HTML`. -/
theorem tag?_refuge (h : t.Housed) {content : Content} {refuge : NodeId}
    (hrefuge : (t.create content).2.body?.or (t.create content).2.documentElement? = some refuge) :
    t.tag? refuge = some "HTML" ∨ t.tag? refuge = some "BODY" := by
  cases hbody : (t.create content).2.body? with
  | some body =>
    rw [hbody, Option.some_or, Option.some.injEq] at hrefuge
    obtain ⟨p, -, hmem, htag⟩ := Tree.section?_eq_some hbody
    rw [Tree.children_create] at hmem
    rw [Tree.tag?_create_of_lt _ (h.linked.child_lt_size hmem)] at htag
    rw [← hrefuge]
    exact .inr htag
  | none =>
    rw [hbody, Option.none_or, Tree.documentElement?_create h.linked] at hrefuge
    obtain ⟨hmem, helement⟩ := Tree.documentElement?_eq_some hrefuge
    exact .inl (h.shaped.html refuge (List.mem_filter.mpr ⟨hmem, helement⟩))

/-- A new element is placed where there is room. -/
theorem Neat.place (h : Neat .markup g) (index : Nat) (tag : String) {e : Element} (he : e.Named)
    {g' : Growth Unit}
    (hplace : place index ⟨g.tree.size⟩ tag { g with tree := (g.tree.create (.element e)).2 } =
      (g', true)) : g'.tree.Tidy ∧ g'.tree.children ⟨g.tree.size⟩ = [] := by
  obtain ⟨c, hc, htext⟩ := h.standing.top_holds
  rw [← innermost_eq_top] at hc
  have hinner : innermost { g with tree := (g.tree.create (.element e)).2 } = g.innermost := rfl
  simp only [Growth.place, hinner] at hplace
  split at hplace
  · next happend =>
    cases hplace
    exact h.tidy.append_element hc htext h.room_innermost he happend
  · split at hplace
    · cases hplace
    · next refuge hrefuge =>
      have htag := tag?_refuge h.housed hrefuge
      obtain ⟨e', he'⟩ : ∃ e', g.tree.element? refuge = some e' := by
        rcases htag with htag | htag <;> exact (Option.map_eq_some_iff.mp htag).imp fun _ h => h.1
      split at hplace
      · next happend =>
        cases hplace
        exact h.tidy.append_element (Tree.element?_eq_some.mp he') (by simp) (roomy_section htag) he
          happend
      · cases hplace
  · cases hplace

theorem mem_openBetween {id : NodeId} {o : OpenElement} (hl : g.tree.Linked)
    (h : o ∈ (g.openBetween id).stack) : o ∈ g.stack ∨ g.tree.Above o.id id := by
  rcases List.mem_append.mp h with h | h
  · obtain ⟨a, ha, rfl⟩ := List.mem_map.mp h
    exact .inr (hl.mem_ancestors.mp ((List.takeWhile_sublist _).subset ha))
  · exact .inl h

/-- A new element that is open has room for what comes after its start tag. -/
theorem room_started {id : NodeId} {tag : String} (hvoid : isVoid tag = false)
    (htag : t.tag? id = some tag) (hleaf : t.children id = []) (hroom : ∀ o ∈ os, t.Roomy o.id) :
    Room t (⟨id, true⟩ :: os) (.after tag) := by
  rw [Phase.after]
  cases hraw : RawText.ofTag? tag with
  | none =>
    intro o ho
    rcases List.mem_cons.mp ho with rfl | ho
    · exact Tree.roomy_of_tag? htag hvoid hraw
    · exact hroom o ho
  | some e =>
    refine ⟨id, os, rfl, ?_, fun _ => hleaf, hroom⟩
    rw [Tree.rawText?, htag, Option.bind_some, hraw]

theorem Neat.takeStart (h : Neat .markup g) (index : Nat) {tag : String}
    {attributes : List Attribute} (hne : tag ≠ "") (hcapital : ∀ c ∈ tag.toList, isCapital c = true)
    (hattributes : ∀ a ∈ attributes, ProperName a.name) :
    Neat (.after tag) (g.takeStart unwatched index tag attributes) := by
  obtain ⟨hnamed, htag⟩ := Element.named_ofSource hne hcapital hattributes
  have hraised := raised_takeStart appending_unwatched index tag attributes g
  have hhoused := h.housed.raised hraised
  have hkeeps := hraised.keeps h.standing.linked
  obtain ⟨g₁, hplace, hstack, -, hstanding, -, hcontent⟩ :=
    place_eq h.standing index tag (.ofSource tag attributes)
  obtain ⟨htidy, hleaf⟩ := h.place index tag hnamed hplace
  rw [← hstack] at hstanding
  obtain ⟨ws, hopen, -, hopened⟩ := hstanding.openBetween ⟨g.tree.size⟩
  have hstart : g.takeStart unwatched index tag attributes =
      if isVoid tag then { g₁ with stack := ws ++ g₁.stack }
      else { g₁ with stack := ⟨⟨g.tree.size⟩, true⟩ :: (ws ++ g₁.stack) } := by
    simp only [Growth.takeStart, Tree.create_fst, hplace, hopen]
    rfl
  have htree : (g.takeStart unwatched index tag attributes).tree = g₁.tree := by
    rw [hstart]
    split <;> rfl
  rw [htree] at hhoused hkeeps
  have helement := Tree.element?_eq_some.mpr hcontent
  have htag' : g₁.tree.tag? ⟨g.tree.size⟩ = some tag := by
    rw [Tree.tag?, helement, Option.map_some, htag]
  -- what is open by now has room: what was open before, and what has come in between
  have hroom : ∀ o ∈ ws ++ g₁.stack, g₁.tree.Roomy o.id := by
    intro o ho
    have ho' : o ∈ (g₁.openBetween ⟨g.tree.size⟩).stack := by rw [hopen]; exact ho
    rcases mem_openBetween htidy.linked ho' with ho' | habove
    · rw [hstack] at ho'
      exact h.standing.roomy_keeps hkeeps ho' (h.room o ho')
    · exact htidy.roomy_of_above helement habove
  rw [hstart]
  split
  · next hvoid =>
    rw [after_of_void hvoid]
    exact ⟨hopened, hhoused, htidy, hroom⟩
  · next hvoid =>
    exact ⟨hopened.opened ⟨_, hcontent, by simp⟩, hhoused, htidy,
      room_started (Bool.eq_false_iff.mpr hvoid) htag' hleaf hroom⟩

/-! ### End tags -/

theorem closeImplicitly_unwatched (index : Nat) (g : Growth Unit) (os : List OpenElement) :
    ∃ issues, os.foldl (closeImplicitly unwatched index) g = { g with issues } := by
  induction os generalizing g with
  | nil => exact ⟨g.issues, rfl⟩
  | cons o os ih =>
    obtain ⟨issues, hclosed⟩ : ∃ issues, closeImplicitly unwatched index g o = { g with issues } := by
      simp only [closeImplicitly]
      split
      · exact ⟨_, rfl⟩
      · exact ⟨g.issues, rfl⟩
    rw [List.foldl_cons, hclosed]
    exact ih { g with issues }

theorem announceEnd_unwatched (g : Growth Unit) (o : OpenElement) : announceEnd unwatched g o = g := by
  simp only [announceEnd]
  split <;> rfl

/-- With nobody watching, an end tag only takes from the stack. -/
theorem takeEnd_unwatched (index : Nat) (tag : String) (g : Growth Unit) :
    ∃ stack issues, g.takeEnd unwatched index tag = { g with stack, issues } ∧ stack <:+ g.stack := by
  simp only [Growth.takeEnd]
  split
  · exact ⟨g.stack, g.issues, rfl, List.suffix_refl _⟩
  · split
    · exact ⟨g.stack, _, rfl, List.suffix_refl _⟩
    · next closed rest hdrop =>
      obtain ⟨issues, hclosed⟩ := closeImplicitly_unwatched index { g with stack := rest }
        (g.stack.takeWhile fun o => g.tree.tag? o.id ≠ some tag)
      refine ⟨rest, issues, by rw [hclosed, announceEnd_unwatched], ?_⟩
      have hsuffix : closed :: rest <:+ g.stack := by
        rw [← hdrop]
        exact List.dropWhile_suffix _
      exact (List.suffix_cons closed rest).trans hsuffix

theorem Neat.takeEnd (h : Neat .markup g) (index : Nat) (tag : String) :
    Neat .markup (g.takeEnd unwatched index tag) := by
  obtain ⟨stack, issues, hend, hsuffix⟩ := takeEnd_unwatched index tag g
  rw [hend]
  exact ⟨⟨h.standing.linked, h.standing.root, fun o ho => h.standing.holds o (hsuffix.subset ho)⟩,
    h.housed, h.tidy, fun o ho => h.room o (hsuffix.subset ho)⟩

/-- The end of a raw text element, which is the innermost. -/
theorem Neat.takeEnd_raw {e : RawText} {said : Bool} (h : Neat (.raw e said) g) (index : Nat) :
    Neat .markup (g.takeEnd unwatched index e.name.toUpper) := by
  obtain ⟨id, rest, hstack, hraw, -, hrest⟩ := h.room
  obtain ⟨tag, htag, hr⟩ := Option.bind_eq_some_iff.mp hraw
  obtain ⟨e', he', rfl⟩ := Option.map_eq_some_iff.mp htag
  have hname : e'.tag = e.name.toUpper := by
    rw [← ofTag?_eq_some hr, Case.toUpper_toLower (h.tidy.element id e' he').capital]
  have hvoid : isVoid e.name.toUpper = false := by
    rw [← hname, isVoid_of_raw hr]
  rw [takeEnd_innermost index hvoid hstack (by rw [htag, hname])]
  refine ⟨⟨h.standing.linked, h.standing.root, fun o ho => h.standing.holds o ?_⟩, h.housed, h.tidy,
    hrest⟩
  rw [hstack]
  exact .tail _ ho

/-! ### Documents -/

theorem Neat.take (h : Neat phase g) {token : Token} (hturn : Turn phase token phase') (index : Nat) :
    Neat phase' (take unwatched g (index, token)) := by
  cases hturn with
  | text hs hplain => exact h.takeText index hs hplain
  | startTag hne hcapital hattributes => exact h.takeStart index hne hcapital hattributes
  | endTag => exact h.takeEnd index _
  | rawText hs hunclosed => exact h.takeText_raw index hs hunclosed
  | rawEnd => exact h.takeEnd_raw index

theorem Neat.takeAll (h : Neat phase g) {l : List (Nat × Token)}
    (horderly : Orderly phase (l.map (·.2)) phase') :
    Neat phase' (l.foldl (Growth.take unwatched) g) := by
  induction l generalizing phase g with
  | nil =>
    cases horderly
    exact h
  | cons token l ih =>
    cases horderly with
    | cons hturn hlater => exact ih (h.take hturn token.1) hlater

theorem neat_start : Neat .markup ({ memory := () } : Growth Unit) where
  standing := ⟨Tree.linked_empty, rfl, by simp⟩
  housed := Tree.housed_empty
  tidy := Tree.tidy_empty
  room := by simp [Room]

theorem announceAll_unwatched (g : Growth Unit) (os : List OpenElement) :
    os.foldl (announceEnd unwatched) g = g := by
  induction os with
  | nil => rfl
  | cons o os ih => rw [List.foldl_cons, announceEnd_unwatched, ih]

/-- With nobody watching, all the end does to the tree is to give it a root. -/
theorem finish_unwatched (h : Standing g.stack g.tree) (index : Nat) :
    (g.finish unwatched index).tree = g.tree.rooted := by
  have hstanding : Standing [] (g.stack.foldl (announceEnd unwatched) { g with stack := [] }).tree := by
    rw [announceAll_unwatched]
    exact ⟨h.linked, h.root, by simp⟩
  rw [finish_eq_rooted index g hstanding, announceAll_unwatched]

theorem Neat.finish (h : Neat phase g) (index : Nat) : (g.finish unwatched index).tree.Tidy := by
  rw [finish_unwatched h.standing, Tree.rooted]
  split
  · exact h.tidy
  · exact (h.tidy.wrapper h.standing.root (by simp)
      (Tree.roomy_of_untagged (Tree.tag?_document h.standing.root)) (.inl rfl)).1

end Steps

end Markup.Growth

namespace Markup

theorem parse_eq_ok {p p' : Parser} {input : String} {t : Tree}
    (hparse : p.parse input = (.ok t, p')) :
    p.parseWith unwatched () input = (.ok t, (), p') := by
  simp only [Parser.parse, Prod.mk.injEq] at hparse
  rw [← hparse.1, ← hparse.2]

/-- **Parsed documents are tidy** and in shape, and have a root. -/
theorem tidy_of_parse {p p' : Parser} {input : String} {t : Tree}
    (hparse : p.parse input = (.ok t, p')) :
    t.Tidy ∧ t.Housed ∧ t.documentElement?.isSome = true := by
  obtain ⟨-, htree, -⟩ := parseWith_eq_ok (parse_eq_ok hparse)
  obtain ⟨phase, horderly⟩ := orderly_of_read input
  have hread := Growth.neat_start.takeAll horderly
  have hfinished := hread.housed.raised
    (Growth.raised_finish Growth.appending_unwatched input.length _)
  have hsome := Growth.exists_root_finish Growth.appending_unwatched input.length hread.housed
  have htidy := hread.finish input.length
  rw [htree] at hfinished hsome htidy
  exact ⟨htidy, hfinished, hsome⟩

end Markup

end Hypertext
