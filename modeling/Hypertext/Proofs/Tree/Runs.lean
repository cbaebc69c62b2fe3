/-
Every tree that mutations can make of the empty one is linked, however many
there are, in whatever order, of whatever nodes, and also where some fail. In
such a tree all walks end, and a node's descendants are what its children lead
to.
-/
import Hypertext.Proofs.Tree.Moves

namespace Hypertext

/-- A content without what can change of it: a text's characters, an element's attributes. -/
def Content.frame : Content → Content
  | .document => .document
  | .element e => .element { tag := e.tag }
  | .text _ => .text ""

namespace Tree

/-- One call that may change a tree. A node may be one that the tree does not have. -/
inductive Mutation where
  | create (content : Content)
  | createElement (tag : String)
  | createText (s : String)
  | append (parent child : NodeId)
  | insertBefore (parent node reference : NodeId)
  | remove (id : NodeId)
  | editAttributes (id : NodeId) (f : Attributes → Attributes)
  | editText (id : NodeId) (s : String)

/-- What a mutation leaves. An insertion that fails leaves all as it was. -/
def mutate (t : Tree) : Mutation → Tree
  | .create content => (t.create content).2
  | .createElement tag => (t.create (.element (.ofTag tag))).2
  | .createText s => (t.create (.text s)).2
  | .append parent child => (t.append parent child).toOption.getD t
  | .insertBefore parent node reference => (t.insertBefore parent node reference).toOption.getD t
  | .remove id => t.remove id
  | .editAttributes id f => t.modifyAttributes id f
  | .editText id s => t.setText id s

/-- What mutations leave, one after the other. -/
def mutateAll (t : Tree) (ms : List Mutation) : Tree :=
  ms.foldl mutate t

/-- All nodes of `t` are nodes of `t'`, of the same kind and tag. -/
structure Keeps (t t' : Tree) : Prop where
  size_le : t.size ≤ t'.size
  frame : ∀ id, id.index < t.size → (t'.content? id).map Content.frame = (t.content? id).map Content.frame

variable {t : Tree}

/-! ## What one mutation keeps -/

theorem inner_modifyAttributes (f : Attributes → Attributes) :
    Inner fun n => match n.content with
      | .element e => { n with content := .element { e with attributes := f e.attributes } }
      | _ => n where
  parent n := by split <;> rfl
  children n := by split <;> rfl
  text n s h := by
    split at h
    · cases h
    · exact ⟨s, h⟩
  document n h := by
    split at h
    · cases h
    · exact h

theorem inner_setText (s : String) :
    Inner fun n => match n.content with
      | .text _ => { n with content := .text s }
      | _ => n where
  parent n := by split <;> rfl
  children n := by split <;> rfl
  text n s h := by
    split at h
    · next s' hs => exact ⟨s', hs⟩
    · exact ⟨s, h⟩
  document n h := by
    split at h
    · cases h
    · exact h

theorem Linked.mutate (hl : t.Linked) (m : Mutation) : (t.mutate m).Linked := by
  cases m with
  | create content => exact hl.create content
  | createElement tag => exact hl.create _
  | createText s => exact hl.create _
  | append parent child =>
    simp only [Tree.mutate]
    cases h : t.append parent child with
    | error e => exact hl
    | ok t' => exact hl.append h
  | insertBefore parent node reference =>
    simp only [Tree.mutate]
    cases h : t.insertBefore parent node reference with
    | error e => exact hl
    | ok t' => exact hl.insertBefore h
  | remove id => exact hl.remove id
  | editAttributes id f => exact hl.modify (inner_modifyAttributes f) id
  | editText id s => exact hl.modify (inner_setText s) id

theorem Linked.mutateAll (hl : t.Linked) (ms : List Mutation) : (t.mutateAll ms).Linked := by
  induction ms generalizing t with
  | nil => exact hl
  | cons m ms ih => exact ih (hl.mutate m)

/-! ## What mutations keep of the nodes -/

theorem Keeps.rfl : t.Keeps t :=
  ⟨Nat.le_refl _, fun _ _ => Eq.refl _⟩

theorem Keeps.trans {t' t'' : Tree} (h : t.Keeps t') (h' : t'.Keeps t'') : t.Keeps t'' where
  size_le := Nat.le_trans h.size_le h'.size_le
  frame id hid := (h'.frame id (Nat.lt_of_lt_of_le hid h.size_le)).trans (h.frame id hid)

theorem keeps_create (t : Tree) (content : Content) : t.Keeps (t.create content).2 where
  size_le := by rw [size_create]; exact Nat.le_succ _
  frame id hid := by rw [content?_create_of_lt _ hid]

theorem keeps_modify {f : Node → Node} (hf : ∀ n, (f n).content.frame = n.content.frame)
    (t : Tree) (changed : NodeId) : t.Keeps (t.modify changed f) where
  size_le := Nat.le_of_eq (size_modify t changed f).symm
  frame id _ := by
    simp only [content?, node?_modify]
    split <;> cases t.node? id <;> simp [hf]

theorem keeps_remove (t : Tree) (id : NodeId) : t.Keeps (t.remove id) where
  size_le := Nat.le_of_eq (size_remove t id).symm
  frame x _ := by rw [content?_remove]

theorem Linked.keeps_append (hl : t.Linked) {parent child : NodeId} {t' : Tree}
    (h : t.append parent child = .ok t') : t.Keeps t' := by
  obtain ⟨hf, -⟩ := hl.append_ok_iff.mp h
  exact ⟨(hl.content?_append h hf.child_lt_size).2, fun id hid => by rw [(hl.content?_append h hid).1]⟩

theorem Linked.keeps_insertBefore (hl : t.Linked) {parent node reference : NodeId} {t' : Tree}
    (h : t.insertBefore parent node reference = .ok t') : t.Keeps t' := by
  obtain ⟨-, -, h⟩ := hl.insertBefore_ok_iff.mp h
  split at h
  · rw [h]
    exact .rfl
  · rw [h]
    exact ⟨Nat.le_of_eq size_link.symm, fun id _ => by rw [content?_link]⟩

theorem Linked.keeps_mutate (hl : t.Linked) (m : Mutation) : t.Keeps (t.mutate m) := by
  cases m with
  | create content => exact keeps_create t _
  | createElement tag => exact keeps_create t _
  | createText s => exact keeps_create t _
  | append parent child =>
    simp only [Tree.mutate]
    cases h : t.append parent child with
    | error e => exact .rfl
    | ok t' => exact hl.keeps_append h
  | insertBefore parent node reference =>
    simp only [Tree.mutate]
    cases h : t.insertBefore parent node reference with
    | error e => exact .rfl
    | ok t' => exact hl.keeps_insertBefore h
  | remove id => exact keeps_remove t id
  | editAttributes id f =>
    refine keeps_modify (fun n => ?_) t id
    split <;> simp [Content.frame, *]
  | editText id s =>
    refine keeps_modify (fun n => ?_) t id
    split <;> simp [Content.frame, *]

theorem Linked.keeps_mutateAll (hl : t.Linked) (ms : List Mutation) : t.Keeps (t.mutateAll ms) := by
  induction ms generalizing t with
  | nil => exact .rfl
  | cons m ms ih => exact (hl.keeps_mutate m).trans (ih (hl.mutate m))

theorem Keeps.document {t' : Tree} (h : t.Keeps t') {id : NodeId}
    (hid : t.content? id = some .document) : t'.content? id = some .document := by
  have hframe := h.frame id (lt_size_of_content? hid)
  rw [hid, Option.map_some, Option.map_eq_some_iff] at hframe
  obtain ⟨c, hc, hframe⟩ := hframe
  cases c with
  | document => exact hc
  | element e => cases hframe
  | text s => cases hframe

/-- What held children still can. -/
theorem Keeps.holds {t' : Tree} (h : t.Keeps t') {id : NodeId}
    (hid : ∃ c, t.content? id = some c ∧ ∀ s, c ≠ .text s) :
    ∃ c, t'.content? id = some c ∧ ∀ s, c ≠ .text s := by
  obtain ⟨c, hc, htext⟩ := hid
  have hframe := h.frame id (lt_size_of_content? hc)
  rw [hc, Option.map_some, Option.map_eq_some_iff] at hframe
  obtain ⟨c', hc', hframe⟩ := hframe
  refine ⟨c', hc', ?_⟩
  rintro s rfl
  cases c with
  | text s' => exact htext s' (Eq.refl _)
  | document => cases hframe
  | element e => cases hframe

/-! ## The empty tree -/

theorem parent?_empty (id : NodeId) : empty.parent? id = none := by
  by_cases h : id.index < empty.size
  · obtain ⟨i⟩ := id
    obtain rfl : i = 0 := by simpa [empty, size] using h
    rfl
  · exact parent?_eq_none_of_size_le (Nat.le_of_not_lt h)

theorem children_empty (id : NodeId) : empty.children id = [] := by
  by_cases h : id.index < empty.size
  · obtain ⟨i⟩ := id
    obtain rfl : i = 0 := by simpa [empty, size] using h
    rfl
  · exact children_eq_nil_of_size_le (Nat.le_of_not_lt h)

theorem content?_empty {id : NodeId} {c : Content} (h : empty.content? id = some c) :
    c = .document := by
  have hid : id.index < empty.size := lt_size_of_content? h
  obtain ⟨i⟩ := id
  obtain rfl : i = 0 := by simpa [empty, size] using hid
  exact (Option.some.inj h).symm

theorem linked_empty : empty.Linked where
  mem_children p c := by simp [children_empty, parent?_empty]
  nodup p := by simp [children_empty]
  text_leaf id s _ := children_empty id
  document_top id _ := parent?_empty id
  acyclic id h := by
    obtain ⟨p, hp, -⟩ := above_iff.mp h
    simp [parent?_empty] at hp

/-! ## Runs -/

/-- **The links of a tree.** After any mutations of the empty tree, failed ones included: nodes in
links are known; children and parents agree, without repetition; texts have no children and
documents no parent; following parents meets no node twice. So walks upwards and downwards end, the
fuel they are given never runs out, and descendants are what children lead to in one step or more. -/
theorem links_after_mutations (ms : List Mutation) :
    let t := empty.mutateAll ms
    (∀ p c, t.parent? c = some p ∨ c ∈ t.children p → p.index < t.size ∧ c.index < t.size) ∧
    (∀ p c, c ∈ t.children p ↔ t.parent? c = some p) ∧
    (∀ p, (t.children p).Nodup) ∧
    (∀ id s, t.text? id = some s → t.children id = []) ∧
    (∀ id, t.content? id = some .document → t.parent? id = none) ∧
    (∀ n id, (t.chain n (some id)).Nodup) ∧
    (WellFounded fun p c => t.parent? c = some p) ∧
    (WellFounded fun c p => c ∈ t.children p) ∧
    (∀ n id, t.size ≤ n → t.chain n (t.parent? id) = t.ancestors id ∧
      t.textFrom n id = t.textContent id ∧ t.write n id = t.outer id ∧
      String.join ((t.children id).map (t.write n)) = t.inner id) ∧
    ∀ d a, t.isDescendant d a = true ↔
      Relation.TransGen (fun p c => c ∈ t.children p) a d := by
  intro t
  have hl : t.Linked := linked_empty.mutateAll ms
  refine ⟨fun p c h => ?_, hl.mem_children, hl.nodup, hl.text_leaf, hl.document_top,
    fun n id => hl.chain_nodup n _,
    Subrelation.wf (fun {p c} h => above_iff.mpr ⟨p, h, .inl rfl⟩) hl.wellFounded_above,
    Subrelation.wf (fun {c p} h => above_iff.mpr ⟨p, (hl.mem_children p c).mp h, .inl rfl⟩)
      hl.wellFounded_below,
    fun n id hn => ⟨hl.chain_eq_ancestors hn id, hl.textFrom_eq_textContent hn id,
      hl.write_eq_outer hn id, ?_⟩, fun d a => ?_⟩
  · have hp : t.parent? c = some p := h.elim id (hl.mem_children p c).mp
    exact ⟨hl.parent_lt_size hp, lt_size_of_parent? hp⟩
  · rw [inner, List.map_congr_left fun c _ => hl.write_eq_outer hn c]
  · rw [hl.isDescendant_iff, hl.above_eq_below]

end Tree

end Hypertext
