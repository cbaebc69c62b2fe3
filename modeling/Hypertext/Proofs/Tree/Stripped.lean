/-
Trees stripped of their attributes. Nothing that links nodes or walks along
their links looks at attributes, so whatever is done to a tree is done to the
stripped one, and what is found in the one is found in the other. An edit of
attributes is not seen there at all (`stripped_modifyAttributes`).
-/
import Hypertext.Proofs.Tree.Pruned

namespace Hypertext

/-- An element without its attributes; any other content as it is. -/
def Content.stripped : Content → Content
  | .document => .document
  | .element e => .element { tag := e.tag }
  | .text s => .text s

@[simp] theorem Content.name_stripped (c : Content) : c.stripped.name = c.name := by
  cases c <;> rfl

theorem Content.stripped_eq_document {c : Content} : c.stripped = .document ↔ c = .document := by
  cases c <;> simp [stripped]

def Node.stripped (n : Node) : Node :=
  { n with content := n.content.stripped }

namespace Tree

/-- The tree without any attributes. -/
def stripped (t : Tree) : Tree :=
  ⟨t.nodes.map Node.stripped⟩

variable (t : Tree) (id parent child : NodeId)

/-! ## What is found there -/

@[simp] theorem size_stripped : t.stripped.size = t.size := by
  simp [stripped, size]

theorem node?_stripped : t.stripped.node? id = (t.node? id).map Node.stripped := by
  simp [stripped, node?]

@[simp] theorem content?_stripped : t.stripped.content? id = (t.content? id).map Content.stripped := by
  rw [content?, node?_stripped, content?]
  cases t.node? id <;> rfl

@[simp] theorem parent?_stripped : t.stripped.parent? id = t.parent? id := by
  rw [parent?, node?_stripped, parent?]
  cases t.node? id <;> rfl

@[simp] theorem children_stripped : t.stripped.children id = t.children id := by
  rw [children, node?_stripped, children]
  cases t.node? id <;> rfl

@[simp] theorem name?_stripped : t.stripped.name? id = t.name? id := by
  rw [name?, content?_stripped, name?]
  cases t.content? id <;> simp

@[simp] theorem text?_stripped : t.stripped.text? id = t.text? id := by
  rw [text?, content?_stripped, text?]
  rcases t.content? id with _ | ⟨_ | e | s⟩ <;> rfl

@[simp] theorem tag?_stripped : t.stripped.tag? id = t.tag? id := by
  rw [tag?, element?, content?_stripped, tag?, element?]
  rcases t.content? id with _ | ⟨_ | e | s⟩ <;> rfl

@[simp] theorem isElement_stripped : t.stripped.isElement id = t.isElement id := by
  rw [isElement, element?, content?_stripped, isElement, element?]
  rcases t.content? id with _ | ⟨_ | e | s⟩ <;> rfl

@[simp] theorem documentElement?_stripped : t.stripped.documentElement? = t.documentElement? := by
  rw [documentElement?, children_stripped, documentElement?]
  exact congrArg (fun p => (t.children root).find? p) (funext t.isElement_stripped)

@[simp] theorem section?_stripped (tag : String) : t.stripped.section? tag = t.section? tag := by
  simp [section?]

theorem chain_stripped (fuel : Nat) (start : Option NodeId) :
    t.stripped.chain fuel start = t.chain fuel start := by
  induction fuel generalizing start with
  | zero => rfl
  | succ fuel ih =>
    cases start with
    | none => rfl
    | some id => rw [chain, parent?_stripped, ih, chain]

@[simp] theorem ancestors_stripped : t.stripped.ancestors id = t.ancestors id := by
  rw [ancestors, size_stripped, parent?_stripped, chain_stripped, ancestors]

theorem above_stripped : t.stripped.Above = t.Above := by
  simp only [Above, parent?_stripped]

variable {t id parent child}

theorem linked_stripped : t.stripped.Linked ↔ t.Linked := by
  have hdocument : ∀ x, t.stripped.content? x = some .document ↔ t.content? x = some .document := by
    simp [Content.stripped_eq_document]
  constructor
  · intro h
    exact ⟨by simpa using h.mem_children, by simpa using h.nodup, by simpa using h.text_leaf,
      fun x hx => by simpa using h.document_top x ((hdocument x).mpr hx),
      by simpa [above_stripped] using h.acyclic⟩
  · intro h
    exact ⟨by simpa using h.mem_children, by simpa using h.nodup, by simpa using h.text_leaf,
      fun x hx => by simpa using h.document_top x ((hdocument x).mp hx),
      by simpa [above_stripped] using h.acyclic⟩

/-! ## What is done there -/

@[simp] theorem stripped_create (content : Content) :
    (t.create content).2.stripped = (t.stripped.create content.stripped).2 := by
  simp [create, stripped, Node.stripped]

theorem stripped_modify {f : Node → Node} (hf : ∀ n, (f n).stripped = f n.stripped) :
    (t.modify id f).stripped = t.stripped.modify id f := by
  have hnodes : (t.nodes.modify id.index f).map Node.stripped =
      (t.nodes.map Node.stripped).modify id.index f := by
    refine Array.ext_getElem? fun i => ?_
    rw [Array.getElem?_map, Array.getElem?_modify, Array.getElem?_modify, Array.getElem?_map]
    split
    · cases t.nodes[i]? <;> simp [hf]
    · rfl
  exact congrArg Tree.mk hnodes

theorem stripped_reparent (p : Option NodeId) :
    (t.modify id fun n => { n with parent := p }).stripped =
      t.stripped.modify id fun n => { n with parent := p } :=
  stripped_modify fun _ => rfl

theorem stripped_rearrange (f : List NodeId → List NodeId) :
    (t.modify id fun n => { n with children := f n.children }).stripped =
      t.stripped.modify id fun n => { n with children := f n.children } :=
  stripped_modify fun _ => rfl

@[simp] theorem stripped_modifyAttributes (f : Attributes → Attributes) :
    (t.modifyAttributes id f).stripped = t.stripped := by
  have hnodes : (t.modifyAttributes id f).nodes.map Node.stripped = t.nodes.map Node.stripped := by
    refine Array.ext_getElem? fun i => ?_
    rw [modifyAttributes, modify, Array.getElem?_map, Array.getElem?_modify, Array.getElem?_map]
    split
    · rcases t.nodes[i]? with _ | ⟨_ | e | s, parent, children⟩ <;> rfl
    · rfl
  exact congrArg Tree.mk hnodes

@[simp] theorem stripped_remove : (t.remove id).stripped = t.stripped.remove id := by
  rw [remove, remove, parent?_stripped]
  cases t.parent? id with
  | none => rfl
  | some p => simp only [stripped_reparent, stripped_rearrange]

@[simp] theorem stripped_attach :
    (t.attach parent child).stripped = t.stripped.attach parent child := by
  simp only [attach, link, stripped_reparent, stripped_rearrange (· ++ [child]), stripped_remove]

@[simp] theorem stripped_ofTag (tag : String) :
    (Content.element (.ofTag tag)).stripped = .element (.ofTag tag) := rfl

theorem stripped_wrapper (tag : String) :
    (t.stripped.wrapper parent tag) = ((t.wrapper parent tag).1, (t.wrapper parent tag).2.stripped) := by
  simp [wrapper_eq]

theorem stripped_shelter (tag : String) :
    (t.stripped.shelter parent tag) = ((t.shelter parent tag).1, (t.shelter parent tag).2.stripped) := by
  simp only [shelter]
  by_cases hroot : parent = root ∧ tag ≠ "HTML"
  · simp only [if_pos hroot, stripped_wrapper, tag?_stripped]
    split <;> rfl
  · simp only [if_neg hroot, stripped_wrapper, tag?_stripped]
    split <;> rfl

theorem Pruned.stripped {gone : List NodeId} {t' : Tree} (h : Pruned gone t t') :
    Pruned gone t.stripped t'.stripped where
  size := by simp [h.size]
  content x := by simp [h.content]
  parent x := by simp [h.parent]
  children x := by simp [h.children]

/-! ## Trees that differ in attributes only -/

section Alike

variable {t' : Tree} (h : t'.stripped = t.stripped)
include h

theorem size_of_stripped : t'.size = t.size := by
  rw [← size_stripped, h, size_stripped]

theorem parent?_of_stripped (id : NodeId) : t'.parent? id = t.parent? id := by
  rw [← parent?_stripped, h, parent?_stripped]

theorem children_of_stripped (id : NodeId) : t'.children id = t.children id := by
  rw [← children_stripped, h, children_stripped]

theorem ancestors_of_stripped (id : NodeId) : t'.ancestors id = t.ancestors id := by
  rw [← ancestors_stripped, h, ancestors_stripped]

theorem documentElement?_of_stripped : t'.documentElement? = t.documentElement? := by
  rw [← documentElement?_stripped, h, documentElement?_stripped]

theorem Linked.of_stripped (hl : t.Linked) : t'.Linked := by
  rwa [← linked_stripped, h, linked_stripped]

theorem content?_of_stripped (id : NodeId) :
    (t'.content? id).map Content.stripped = (t.content? id).map Content.stripped := by
  rw [← content?_stripped, h, content?_stripped]

theorem eq_of_stripped (hcontent : ∀ id, t'.content? id = t.content? id) : t' = t :=
  eq_of_links (size_of_stripped h) hcontent (parent?_of_stripped h) (children_of_stripped h)

end Alike

/-! ## Edits of attributes -/

end Tree

/-- The content with other attributes, where it is an element. -/
def Content.dressed (f : Attributes → Attributes) : Content → Content
  | .element e => .element { e with attributes := f e.attributes }
  | c => c

namespace Tree

variable {t : Tree} {changed id : NodeId} {f g : Attributes → Attributes}

theorem content?_modifyAttributes (t : Tree) (changed id : NodeId) (f : Attributes → Attributes) :
    (t.modifyAttributes changed f).content? id =
      if id = changed then (t.content? id).map (·.dressed f) else t.content? id := by
  rw [content?, modifyAttributes, node?_modify, content?]
  by_cases hid : id = changed
  · rw [if_pos hid.symm, if_pos hid]
    rcases t.node? id with _ | ⟨_ | e | s, parent, children⟩ <;> rfl
  · rw [if_neg (Ne.symm hid), if_neg hid]

@[simp] theorem ancestors_modifyAttributes (t : Tree) (changed id : NodeId)
    (f : Attributes → Attributes) : (t.modifyAttributes changed f).ancestors id = t.ancestors id :=
  ancestors_of_stripped (stripped_modifyAttributes f) id

theorem modifyAttributes_congr
    (h : (t.content? id).map (·.dressed f) = (t.content? id).map (·.dressed g)) :
    t.modifyAttributes id f = t.modifyAttributes id g := by
  refine eq_of_stripped (by simp) fun x => ?_
  rw [content?_modifyAttributes, content?_modifyAttributes]
  split
  · next hx => rw [hx, h]
  · rfl

theorem modifyAttributes_id (t : Tree) (id : NodeId) : t.modifyAttributes id (fun as => as) = t := by
  refine eq_of_stripped (by simp) fun x => ?_
  rw [content?_modifyAttributes]
  split
  · rcases t.content? x with _ | ⟨_ | e | s⟩ <;> rfl
  · rfl

/-- Of two edits of the same element both are made. -/
theorem modifyAttributes_modifyAttributes :
    (t.modifyAttributes id f).modifyAttributes id g = t.modifyAttributes id fun as => g (f as) := by
  refine eq_of_stripped (by simp) fun x => ?_
  simp only [content?_modifyAttributes]
  by_cases hx : x = id
  · rw [if_pos hx, if_pos hx, if_pos hx]
    rcases t.content? x with _ | ⟨_ | e | s⟩ <;> rfl
  · rw [if_neg hx, if_neg hx, if_neg hx]

/-- Only elements have attributes to edit. -/
theorem modifyAttributes_of_not_element (h : ¬ t.isElement id = true) :
    t.modifyAttributes id f = t := by
  rw [← modifyAttributes_id t id, modifyAttributes_modifyAttributes]
  refine modifyAttributes_congr ?_
  cases hc : t.content? id with
  | none => rfl
  | some c =>
    cases c with
    | element e => exact absurd (isElement_iff.mpr ⟨e, hc⟩) h
    | document | text => rfl

end Tree

end Hypertext
