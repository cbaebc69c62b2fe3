/-
The shape of documents: below the document at most one element, an `HTML`, and
below an `HTML` no elements but `HEAD` and `BODY`.

Only insertions can spoil it. An append looks at where the node goes and makes
wrappers, so the shape stays whatever is appended to what. An insertion before
a sibling looks at nothing of the kind: below the document it keeps the shape
just where the document admits the node (`Linked.shaped_mutate_iff`), and it
goes ahead where it does not, too.
-/
import Mathlib.Data.List.Induction
import Hypertext.Proofs.Tree.Runs

namespace Hypertext.Tree

/-- At most one element is below the document, and that is an `HTML`. -/
structure Shaped (t : Tree) : Prop where
  single : (t.childElements root).length ≤ 1
  html : ∀ id ∈ t.childElements root, t.tag? id = some "HTML"

instance (t : Tree) : Decidable t.Shaped :=
  decidable_of_iff ((t.childElements root).length ≤ 1 ∧
    ∀ id ∈ t.childElements root, t.tag? id = some "HTML")
    ⟨fun h => ⟨h.1, h.2⟩, fun h => ⟨h.single, h.html⟩⟩

/-- The elements below an `HTML` are `HEAD`s and `BODY`s, wherever it is. -/
def Sectioned (t : Tree) : Prop :=
  ∀ html, t.tag? html = some "HTML" →
    ∀ id ∈ t.childElements html, t.tag? id = some "HEAD" ∨ t.tag? id = some "BODY"

/-- The document may have the node below it: it is no element, or an `HTML` and the only one. -/
def Admits (t : Tree) (id : NodeId) : Prop :=
  ∀ tag, t.tag? id = some tag → tag = "HTML" ∧ ∀ other ∈ t.childElements root, other = id

/-- The mutation succeeds in putting before a child of the document what the document does not
admit. -/
def Intrudes (t : Tree) : Mutation → Prop
  | .insertBefore parent node reference =>
    parent = root ∧ (∃ t', t.insertBefore parent node reference = .ok t') ∧ ¬ t.Admits node
  | _ => False

/-- Whatever is inserted is appended. -/
def Mutation.Appends : Mutation → Prop
  | .insertBefore _ _ _ => False
  | _ => True

variable {t t' : Tree} {parent child id : NodeId}

/-! ## Tags and child elements -/

theorem tag?_congr (h : t'.content? id = t.content? id) : t'.tag? id = t.tag? id := by
  rw [tag?, tag?, element?, element?, h]

theorem tag?_document (h : t.content? id = some .document) : t.tag? id = none := by
  rw [tag?, element?, h, Option.map_none]

theorem mem_childElements :
    id ∈ t.childElements parent ↔ id ∈ t.children parent ∧ ∃ tag, t.tag? id = some tag := by
  rw [childElements, List.mem_filter, tag?, isElement, Option.isSome_iff_exists]
  simp [Option.map_eq_some_iff]

/-- Mutations leave known nodes their tags, and make no texts or documents of them or the other
way round. -/
theorem Keeps.tag?_eq (h : t.Keeps t') (hid : id.index < t.size) : t'.tag? id = t.tag? id := by
  have hframe := h.frame id hid
  simp only [tag?, element?]
  cases hc : t.content? id with
  | none => rw [hc, Option.map_none, Option.map_eq_none_iff] at hframe; rw [hframe]
  | some c =>
    rw [hc, Option.map_some, Option.map_eq_some_iff] at hframe
    obtain ⟨c', hc', hframe⟩ := hframe
    rw [hc']
    cases c <;> cases c' <;> simp_all [Content.frame]

theorem documentElement?_eq_none_iff : t.documentElement? = none ↔ t.childElements root = [] := by
  rw [documentElement?, childElements, List.find?_eq_none, List.filter_eq_nil_iff]

theorem length_le_one_iff {l : List NodeId} (h : l.Nodup) :
    l.length ≤ 1 ↔ ∀ a ∈ l, ∀ b ∈ l, a = b := by
  rcases l with _ | ⟨a, _ | ⟨b, l⟩⟩
  · simp
  · simp
  · have hne : a ≠ b := by
      rw [List.nodup_cons, List.mem_cons, not_or] at h
      exact h.1.1
    constructor
    · intro hlength
      simp at hlength
    · intro hsame
      exact absurd (hsame a (by simp) b (by simp)) hne

/-- The shape, told of one child at a time. -/
theorem Linked.shaped_iff (hl : t.Linked) : t.Shaped ↔ ∀ id ∈ t.children root, t.Admits id := by
  have hsingle : (t.childElements root).length ≤ 1 ↔
      ∀ a ∈ t.childElements root, ∀ b ∈ t.childElements root, a = b :=
    length_le_one_iff ((hl.nodup root).filter _)
  constructor
  · intro h id hid tag htag
    have hmem : id ∈ t.childElements root := mem_childElements.mpr ⟨hid, tag, htag⟩
    have hhtml := h.html id hmem
    rw [htag, Option.some.injEq] at hhtml
    exact ⟨hhtml, fun other hother => hsingle.mp h.single other hother id hmem⟩
  · intro h
    refine ⟨hsingle.mpr fun a ha b hb => ?_, fun id hid => ?_⟩
    · obtain ⟨hmem, tag, htag⟩ := mem_childElements.mp hb
      exact (h b hmem tag htag).2 a ha
    · obtain ⟨hmem, tag, htag⟩ := mem_childElements.mp hid
      rw [htag, (h id hmem tag htag).1]

/-! ## What keeps the shape -/

section Fewer

variable (hkeeps : t.Keeps t') (hfewer : ∀ p c, c ∈ t'.children p → c ∈ t.children p)
include hkeeps hfewer

theorem Linked.childElements_of_fewer (hl : t.Linked) (h : id ∈ t'.childElements parent) :
    id ∈ t.childElements parent ∧ t'.tag? id = t.tag? id := by
  obtain ⟨hmem, tag, htag⟩ := mem_childElements.mp h
  have hsame := hkeeps.tag?_eq (hl.child_lt_size (hfewer _ _ hmem))
  rw [hsame] at htag
  exact ⟨mem_childElements.mpr ⟨hfewer _ _ hmem, tag, htag⟩, hsame⟩

/-- What only creates, edits or takes out keeps the shape. -/
theorem Linked.shaped_of_fewer (hl : t.Linked) (hl' : t'.Linked) (h : t.Shaped) : t'.Shaped := by
  rw [hl'.shaped_iff]
  intro id hid tag htag
  obtain ⟨hmem, hsame⟩ := hl.childElements_of_fewer hkeeps hfewer
    (mem_childElements.mpr ⟨hid, tag, htag⟩)
  rw [hsame] at htag
  obtain ⟨hhtml, honly⟩ := hl.shaped_iff.mp h id (mem_childElements.mp hmem).1 tag htag
  exact ⟨hhtml, fun other hother => honly other (hl.childElements_of_fewer hkeeps hfewer hother).1⟩

theorem Linked.sectioned_of_fewer (hl : t.Linked) (h : t.Sectioned) : t'.Sectioned := by
  intro html hhtml id hid
  obtain ⟨hmem, hsame⟩ := hl.childElements_of_fewer hkeeps hfewer hid
  have hknown := lt_size_of_mem_children (mem_childElements.mp hmem).1
  rw [hkeeps.tag?_eq hknown] at hhtml
  rw [hsame]
  exact h html hhtml id hmem

end Fewer

/-! ## Linking -/

section Link

variable {place : List NodeId → List NodeId} (hl : t.Linked) (hf : t.Fits parent child)
  (hplace : (place ((t.remove child).children parent)).Perm
    (child :: (t.remove child).children parent))
include hl hf hplace

theorem Linked.mem_childElements_link (p id : NodeId) :
    id ∈ (t.link parent child place).childElements p ↔
      (∃ tag, t.tag? id = some tag) ∧ if id = child then p = parent else id ∈ t.children p := by
  rw [mem_childElements, (hl.link hf hplace).mem_children, parent?_link hf.child_lt_size,
    tag?_congr (content?_link id), and_comm]
  split
  · simp [eq_comm]
  · rw [hl.mem_children]

/-- Below the document, the shape stays just where the document admits the node. -/
theorem Linked.shaped_link_iff (h : t.Shaped) :
    (t.link parent child place).Shaped ↔ (parent = root → t.Admits child) := by
  rw [(hl.link hf hplace).shaped_iff]
  have hmem := hl.mem_childElements_link hf hplace root
  constructor
  · intro hadmits hroot tag htag
    subst hroot
    have hchild : child ∈ (t.link root child place).children root := by
      rw [(hl.link hf hplace).mem_children, parent?_link hf.child_lt_size, if_pos rfl]
    obtain ⟨hhtml, honly⟩ := hadmits child hchild tag (by rw [tag?_congr (content?_link child), htag])
    refine ⟨hhtml, fun other hother => ?_⟩
    obtain ⟨hold, helement⟩ := mem_childElements.mp hother
    by_cases hother : other = child
    · exact hother
    · exact honly other ((hmem other).mpr ⟨helement, by rw [if_neg hother]; exact hold⟩)
  · intro hadmits id hid tag htag
    have hid' := (hmem id).mp (mem_childElements.mpr ⟨hid, tag, htag⟩)
    rw [tag?_congr (content?_link id)] at htag
    by_cases hsame : id = child
    · rw [hsame] at htag hid' ⊢
      rw [if_pos rfl] at hid'
      obtain ⟨hhtml, honly⟩ := hadmits hid'.2.symm tag htag
      refine ⟨hhtml, fun other hother => ?_⟩
      obtain ⟨helement, hold⟩ := (hmem other).mp hother
      by_cases hother : other = child
      · exact hother
      · rw [if_neg hother] at hold
        exact honly other (mem_childElements.mpr ⟨hold, helement⟩)
    · rw [if_neg hsame] at hid'
      obtain ⟨hhtml, honly⟩ := hl.shaped_iff.mp h id hid'.2 tag htag
      refine ⟨hhtml, fun other hother => ?_⟩
      obtain ⟨⟨tag', htag'⟩, hold⟩ := (hmem other).mp hother
      by_cases hother : other = child
      · -- a new child that is an element is admitted, so the old one is the same
        rw [if_pos hother] at hold
        rw [hother] at htag'
        have hsame' := (hadmits hold.symm tag' htag').2 id (mem_childElements.mpr ⟨hid'.2, tag, htag⟩)
        exact absurd hsame' hsame
      · rw [if_neg hother] at hold
        exact honly other (mem_childElements.mpr ⟨hold, tag', htag'⟩)

theorem Linked.sectioned_link (h : t.Sectioned)
    (hsection : t.tag? parent = some "HTML" →
      ∀ tag, t.tag? child = some tag → tag = "HEAD" ∨ tag = "BODY") :
    (t.link parent child place).Sectioned := by
  intro html hhtml id hid
  obtain ⟨⟨tag, htag⟩, hold⟩ := (hl.mem_childElements_link hf hplace html id).mp hid
  rw [tag?_congr (content?_link html)] at hhtml
  rw [tag?_congr (content?_link id)]
  by_cases hsame : id = child
  · rw [if_pos hsame] at hold
    rw [hold] at hhtml
    rw [hsame] at htag ⊢
    rw [htag, Option.some.injEq, Option.some.injEq]
    exact hsection hhtml tag htag
  · rw [if_neg hsame] at hold
    exact h html hhtml id (mem_childElements.mpr ⟨hold, tag, htag⟩)

end Link

/-! ## Appending -/

/-- The shape stays where the child comes under the parent. -/
structure Welcomes (t : Tree) (parent child : NodeId) : Prop where
  document : parent = root → t.Admits child
  html : t.tag? parent = some "HTML" → ∀ tag, t.tag? child = some tag → tag = "HEAD" ∨ tag = "BODY"

theorem tag?_create_self (e : Element) : (t.create (.element e)).2.tag? ⟨t.size⟩ = some e.tag := by
  simp only [tag?, element?, content?_create, ↓reduceIte, Option.map_some]

theorem tag?_create_of_lt (content : Content) (h : id.index < t.size) :
    (t.create content).2.tag? id = t.tag? id :=
  tag?_congr (content?_create_of_lt content h)

theorem Linked.welcomes_create (hl : t.Linked) (e : Element) (hparent : parent.index < t.size)
    (hdocument : parent = root → e.tag = "HTML" ∧ t.documentElement? = none)
    (hhtml : t.tag? parent = some "HTML" → e.tag = "HEAD" ∨ e.tag = "BODY") :
    (t.create (.element e)).2.Welcomes parent ⟨t.size⟩ where
  document h tag htag := by
    rw [tag?_create_self, Option.some.injEq] at htag
    obtain ⟨he, hnone⟩ := hdocument h
    refine ⟨by rw [← htag, he], fun other hother => ?_⟩
    obtain ⟨hmem, helement⟩ := mem_childElements.mp hother
    rw [children_create] at hmem
    rw [tag?_create_of_lt _ (hl.child_lt_size hmem)] at helement
    have hold : other ∈ t.childElements root := mem_childElements.mpr ⟨hmem, helement⟩
    rw [documentElement?_eq_none_iff.mp hnone] at hold
    cases hold
  html h tag htag := by
    rw [tag?_create_self, Option.some.injEq] at htag
    rw [tag?_create_of_lt _ hparent] at h
    rw [← htag]
    exact hhtml h

section Raising

variable {P : Tree → Prop}
  (hcreate : ∀ t e, t.Linked → P t → P (t.create (.element e)).2)
  (hattach : ∀ t p c, t.Linked → t.Fits p c → t.Welcomes p c → P t → P (t.attach p c))
include hcreate hattach

theorem Linked.wrapper_induction (hl : t.Linked) (hf : t.Fits parent child) (tag : String)
    (htag : tag.toUpper = tag)
    (hdocument : parent = root → tag = "HTML" ∧ t.documentElement? = none)
    (hhtml : t.tag? parent = some "HTML" → tag = "HEAD" ∨ tag = "BODY") (h : P t) :
    P (t.wrapper parent tag).2 ∧ (t.wrapper parent tag).1 ≠ root ∧
      (t.wrapper parent tag).2.tag? (t.wrapper parent tag).1 = some tag := by
  obtain ⟨c, hc, htext⟩ := hf.holds
  have hknown := hf.parent_lt_size
  have he : (Element.ofTag tag).tag = tag := htag
  rw [wrapper_eq]
  refine ⟨hattach _ _ _ (hl.create _) (fits_create hl (by simp) hc htext) ?_ (hcreate _ _ hl h), ?_, ?_⟩
  · refine hl.welcomes_create _ hknown ?_ ?_
    · rw [he]
      exact hdocument
    · rw [he]
      exact hhtml
  · intro hroot
    rw [root, NodeId.mk.injEq] at hroot
    omega
  · rw [tag?_congr (content?_attach _ _ _ _), tag?_create_self, he]

/-- An element other than `HEAD` and `BODY` that comes under an `HTML` is welcome in a new `BODY`. -/
theorem Linked.section_raised (hl : t.Linked) (hf : t.Fits parent child) {tag : String}
    (htag : t.tag? child = some tag)
    (hdocument : parent = root → t.tag? root = none ∧ t.Admits child) (h : P t) :
    let place := if t.tag? parent = some "HTML" ∧ tag ≠ "HEAD" ∧ tag ≠ "BODY" then
      t.wrapper parent "BODY" else (parent, t)
    P place.2 ∧ place.2.Welcomes place.1 child := by
  intro place
  by_cases hinner : t.tag? parent = some "HTML" ∧ tag ≠ "HEAD" ∧ tag ≠ "BODY"
  · have hne : parent ≠ root := by
      intro hroot
      rw [hroot, (hdocument hroot).1] at hinner
      cases hinner.1
    obtain ⟨hp, hne', hbody⟩ := hl.wrapper_induction hcreate hattach hf "BODY"
      (by decide +kernel) (fun h => absurd h hne) (by simp) h
    simp only [place, if_pos hinner]
    exact ⟨hp, fun h => absurd h hne', by simp [hbody]⟩
  · simp only [place, if_neg hinner]
    refine ⟨h, fun hroot => (hdocument hroot).2, fun hhtml tag' htag' => ?_⟩
    rw [htag, Option.some.injEq] at htag'
    rw [← htag']
    by_contra hother
    exact hinner ⟨hhtml, not_or.mp hother⟩

/-- A shelter is raised by welcome steps, and welcomes the child. -/
theorem Linked.shelter_raised (hl : t.Linked) (hf : t.Fits parent child) {tag : String}
    (htag : t.tag? child = some tag) (hdocument : t.tag? root = none)
    (hfirst : parent = root → t.documentElement? = none) (h : P t) :
    P (t.shelter parent tag).2 ∧ (t.shelter parent tag).2.Welcomes (t.shelter parent tag).1 child := by
  simp only [Tree.shelter]
  by_cases houter : parent = root ∧ tag ≠ "HTML"
  · simp only [if_pos houter]
    obtain ⟨hparent, -⟩ := houter
    obtain ⟨hp, hne, -⟩ := hl.wrapper_induction hcreate hattach hf "HTML"
      (by decide +kernel) (fun _ => ⟨rfl, hfirst hparent⟩) (by simp [hparent, hdocument]) h
    obtain ⟨hl', hf'⟩ := hl.wrapper hf "HTML"
    refine hl'.section_raised hcreate hattach hf' ?_ (fun hroot => absurd hroot hne) hp
    rw [tag?_congr (content?_wrapper_of_lt "HTML" hf.child_lt_size), htag]
  · simp only [if_neg houter]
    refine hl.section_raised hcreate hattach hf htag (fun hroot => ⟨hdocument, ?_⟩) h
    intro tag' htag'
    rw [htag, Option.some.injEq] at htag'
    refine ⟨?_, by simp [documentElement?_eq_none_iff.mp (hfirst hroot)]⟩
    rw [← htag']
    by_contra hother
    exact houter ⟨hroot, hother⟩

/-- What creating elements and attaching them where they are welcome keeps, appending keeps. -/
theorem Linked.append_raised (hl : t.Linked) (hdocument : t.tag? root = none)
    (happend : t.append parent child = .ok t') (h : P t) : P t' := by
  obtain ⟨hf, happend⟩ := hl.append_ok_iff.mp happend
  cases htag : t.tag? child with
  | none =>
    simp only [htag] at happend
    rw [happend]
    exact hattach t parent child hl hf ⟨by simp [Admits, htag], by simp [htag]⟩ h
  | some tag =>
    simp only [htag] at happend
    obtain ⟨hfirst, happend⟩ := happend
    obtain ⟨hl', hf'⟩ := hl.shelter hf tag
    obtain ⟨hp, hwelcomes⟩ := hl.shelter_raised hcreate hattach hf htag hdocument
      (fun hroot => by simpa [hroot] using hfirst) h
    rw [happend]
    exact hattach _ _ child hl' hf' hwelcomes hp

end Raising

theorem Linked.shaped_append (hl : t.Linked) (hdocument : t.tag? root = none) (h : t.Shaped)
    (happend : t.append parent child = .ok t') : t'.Shaped := by
  refine hl.append_raised (P := Shaped) ?_ ?_ hdocument happend h
  · exact fun t e hl h => hl.shaped_of_fewer (keeps_create t _) (by simp) (hl.create _) h
  · exact fun t p c hl hf hwelcomes h =>
      (hl.shaped_link_iff hf (List.perm_append_singleton _ _) h).mpr hwelcomes.document

theorem Linked.sectioned_append (hl : t.Linked) (hdocument : t.tag? root = none) (h : t.Sectioned)
    (happend : t.append parent child = .ok t') : t'.Sectioned := by
  refine hl.append_raised (P := Sectioned) ?_ ?_ hdocument happend h
  · exact fun t e hl h => hl.sectioned_of_fewer (keeps_create t _) (by simp) h
  · exact fun t p c hl hf hwelcomes h =>
      hl.sectioned_link hf (List.perm_append_singleton _ _) h hwelcomes.html

/-! ## Mutations -/

theorem mem_children_of_modify {f : Node → Node} (hf : Inner f) {changed p c : NodeId}
    (h : c ∈ (t.modify changed f).children p) : c ∈ t.children p := by
  rw [children_modify _ _ hf.children] at h
  exact h

/-- A mutation is a successful insertion, or gives no node new children. -/
theorem Linked.mutate_cases (hl : t.Linked) (m : Mutation) :
    (∃ parent child, m = .append parent child ∧ t.append parent child = .ok (t.mutate m)) ∨
    (∃ parent node reference, m = .insertBefore parent node reference ∧
      t.insertBefore parent node reference = .ok (t.mutate m)) ∨
    ¬ t.Intrudes m ∧ ∀ p c, c ∈ (t.mutate m).children p → c ∈ t.children p := by
  cases m with
  | create content => exact .inr (.inr ⟨id, by simp [Tree.mutate]⟩)
  | createElement tag => exact .inr (.inr ⟨id, by simp [Tree.mutate]⟩)
  | createText s => exact .inr (.inr ⟨id, by simp [Tree.mutate]⟩)
  | append parent child =>
    cases h : t.append parent child with
    | ok t' => exact .inl ⟨parent, child, rfl, by simp [Tree.mutate, h, Except.toOption]⟩
    | error e => exact .inr (.inr ⟨id, by simp [Tree.mutate, h, Except.toOption]⟩)
  | insertBefore parent node reference =>
    cases h : t.insertBefore parent node reference with
    | ok t' =>
      exact .inr (.inl ⟨parent, node, reference, rfl, by simp [Tree.mutate, h, Except.toOption]⟩)
    | error e =>
      exact .inr (.inr ⟨by simp [Intrudes, h], by simp [Tree.mutate, h, Except.toOption]⟩)
  | remove id =>
    refine .inr (.inr ⟨fun h => h, fun p c => ?_⟩)
    rw [Tree.mutate, hl.children_remove, List.mem_filter]
    exact And.left
  | editAttributes id f =>
    refine .inr (.inr ⟨fun h => h, fun p c => ?_⟩)
    exact mem_children_of_modify (inner_modifyAttributes f)
  | editText id s =>
    refine .inr (.inr ⟨fun h => h, fun p c => ?_⟩)
    exact mem_children_of_modify (inner_setText s)

/-- The only way to spoil the shape. -/
theorem Linked.shaped_mutate_iff (hl : t.Linked) (hdocument : t.tag? root = none) (h : t.Shaped)
    (m : Mutation) : (t.mutate m).Shaped ↔ ¬ t.Intrudes m := by
  obtain ⟨parent, child, rfl, happend⟩ | ⟨parent, node, reference, rfl, hinsert⟩ | ⟨hpeace, hfewer⟩ :=
    hl.mutate_cases m
  · simp only [hl.shaped_append hdocument h happend, Intrudes, not_false_eq_true]
  · obtain ⟨hf, hreference, htree⟩ := hl.insertBefore_ok_iff.mp hinsert
    have hintrudes : t.Intrudes (.insertBefore parent node reference) ↔
        parent = root ∧ ¬ t.Admits node := by
      simp only [Intrudes, hinsert, Except.ok.injEq, exists_eq', true_and]
    rw [hintrudes, htree]
    by_cases hsame : node = reference
    · rw [if_pos hsame]
      simp only [h, true_iff, not_and, not_not]
      intro hroot
      rw [hsame]
      exact hl.shaped_iff.mp h reference (hroot ▸ hreference)
    · have hplace : reference ∈ (t.remove node).children parent := by
        rw [hl.children_remove, List.mem_filter]
        exact ⟨hreference, by simpa using Ne.symm hsame⟩
      rw [if_neg hsame, hl.shaped_link_iff hf (putBefore_perm hplace) h, not_and, not_not]
  · simp only [hpeace, not_false_eq_true, iff_true]
    exact hl.shaped_of_fewer (hl.keeps_mutate m) hfewer (hl.mutate m) h

theorem Linked.sectioned_mutate (hl : t.Linked) (hdocument : t.tag? root = none) (h : t.Sectioned)
    {m : Mutation} (hm : m.Appends) : (t.mutate m).Sectioned := by
  obtain ⟨parent, child, rfl, happend⟩ | ⟨parent, node, reference, rfl, hinsert⟩ | ⟨-, hfewer⟩ :=
    hl.mutate_cases m
  · exact hl.sectioned_append hdocument h happend
  · cases hm
  · exact hl.sectioned_of_fewer (hl.keeps_mutate m) hfewer h

theorem Mutation.Appends.not_intrudes {m : Mutation} (hm : m.Appends) : ¬ t.Intrudes m := by
  cases m <;> simp_all [Mutation.Appends, Intrudes]

/-! ## Runs -/

theorem mutateAll_append (t : Tree) (ms ms' : List Mutation) :
    t.mutateAll (ms ++ ms') = (t.mutateAll ms).mutateAll ms' :=
  List.foldl_append

theorem mutateAll_concat (t : Tree) (ms : List Mutation) (m : Mutation) :
    t.mutateAll (ms ++ [m]) = (t.mutateAll ms).mutate m :=
  mutateAll_append t ms [m]

theorem tag?_root_mutateAll (ms : List Mutation) : (empty.mutateAll ms).tag? root = none := by
  have hroot : root.index < empty.size := by decide
  rw [(linked_empty.keeps_mutateAll ms).tag?_eq hroot]
  rfl

theorem shaped_empty : empty.Shaped := by
  refine ⟨?_, ?_⟩ <;> simp [childElements, children_empty]

theorem sectioned_empty : empty.Sectioned := by
  intro html _ id hid
  simp [childElements, children_empty] at hid

/-- What appending keeps of a document. -/
structure Housed (t : Tree) : Prop where
  linked : t.Linked
  document : t.content? root = some .document
  shaped : t.Shaped
  sectioned : t.Sectioned

theorem housed_empty : empty.Housed where
  linked := linked_empty
  document := rfl
  shaped := shaped_empty
  sectioned := sectioned_empty

theorem Housed.mutate (h : t.Housed) {m : Mutation} (hm : m.Appends) : (t.mutate m).Housed where
  linked := h.linked.mutate m
  document := (h.linked.keeps_mutate m).document h.document
  shaped := (h.linked.shaped_mutate_iff (tag?_document h.document) h.shaped m).mpr hm.not_intrudes
  sectioned := h.linked.sectioned_mutate (tag?_document h.document) h.sectioned hm

/-- A document in shape that has an element below it has just one. -/
theorem Housed.exists_root (h : t.Housed) (hsome : t.documentElement?.isSome = true) :
    ∃ html, t.childElements root = [html] ∧ t.tag? html = some "HTML" := by
  have hne : t.childElements root ≠ [] := by
    intro hnil
    rw [documentElement?_eq_none_iff.mpr hnil] at hsome
    cases hsome
  obtain ⟨html, hhtml⟩ := List.length_eq_one_iff.mp
    (Nat.le_antisymm h.shaped.single (List.length_pos_iff.mpr hne))
  exact ⟨html, hhtml, h.shaped.html html (by simp [hhtml])⟩

/-- `t'` comes from `t` by appending. -/
def Raised (t t' : Tree) : Prop :=
  ∃ ms : List Mutation, (∀ m ∈ ms, m.Appends) ∧ t' = t.mutateAll ms

theorem Raised.refl (t : Tree) : t.Raised t :=
  ⟨[], by simp, rfl⟩

theorem Raised.trans {t'' : Tree} (h : t.Raised t') (h' : t'.Raised t'') : t.Raised t'' := by
  obtain ⟨ms, hms, rfl⟩ := h
  obtain ⟨ms', hms', rfl⟩ := h'
  refine ⟨ms ++ ms', fun m hm => ?_, (mutateAll_append t ms ms').symm⟩
  rcases List.mem_append.mp hm with hm | hm
  · exact hms m hm
  · exact hms' m hm

theorem Raised.keeps (hl : t.Linked) (h : t.Raised t') : t.Keeps t' := by
  obtain ⟨ms, -, rfl⟩ := h
  exact hl.keeps_mutateAll ms

theorem raised_mutate {m : Mutation} (hm : m.Appends) : t.Raised (t.mutate m) :=
  ⟨[m], by simpa using hm, rfl⟩

theorem raised_create (t : Tree) (content : Content) : t.Raised (t.create content).2 :=
  raised_mutate (m := .create content) trivial

theorem raised_append (happend : t.append parent child = .ok t') : t.Raised t' := by
  have hraised : t.Raised (t.mutate (.append parent child)) := raised_mutate trivial
  simpa [Tree.mutate, happend, Except.toOption] using hraised

theorem Housed.raised (h : t.Housed) (hraised : t.Raised t') : t'.Housed := by
  obtain ⟨ms, hms, rfl⟩ := hraised
  induction ms generalizing t with
  | nil => exact h
  | cons m ms ih =>
    exact ih (h.mutate (hms m List.mem_cons_self)) fun m' hm' => hms m' (List.mem_cons_of_mem m hm')

/-- **The shape of a document.** After any mutations of the empty tree there is at most one element
below the document, an `HTML`, as long as no insertion before a child of the document has brought
there what the document does not admit; and each that does spoils the shape. -/
theorem shape_after_mutations (ms : List Mutation) :
    (∀ earlier, earlier <+: ms → (empty.mutateAll earlier).Shaped) ↔
      ∀ earlier m, earlier ++ [m] <+: ms → ¬ (empty.mutateAll earlier).Intrudes m := by
  have hstep : ∀ earlier m, (empty.mutateAll earlier).Shaped →
      ((empty.mutateAll (earlier ++ [m])).Shaped ↔ ¬ (empty.mutateAll earlier).Intrudes m) := by
    intro earlier m h
    rw [mutateAll_concat]
    exact (linked_empty.mutateAll earlier).shaped_mutate_iff (tag?_root_mutateAll earlier) h m
  constructor
  · intro h earlier m hprefix
    have hshaped := h earlier ((List.prefix_append _ _).trans hprefix)
    exact (hstep earlier m hshaped).mp (h _ hprefix)
  · intro h earlier hprefix
    induction earlier using List.reverseRecOn with
    | nil => exact shaped_empty
    | append_singleton earlier m ih =>
      have hshaped := ih ((List.prefix_append _ _).trans hprefix)
      exact (hstep earlier m hshaped).mpr (h earlier m hprefix)

-- A second `HTML` goes before the first, and anything before a text.
example : ¬ (empty.mutateAll [.createElement "html", .append root ⟨1⟩, .createElement "html",
    .insertBefore root ⟨2⟩ ⟨1⟩]).Shaped := by
  decide +kernel

example : ¬ (empty.mutateAll [.createText "x", .append root ⟨1⟩, .createElement "a",
    .insertBefore root ⟨2⟩ ⟨1⟩]).Shaped := by
  decide +kernel

end Hypertext.Tree
