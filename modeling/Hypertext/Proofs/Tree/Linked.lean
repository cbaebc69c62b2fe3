/-
How the nodes of a tree hang together: parents and children agree, and no node
stands above itself. In such a tree no walk along parents or children is cut
short by its bound: with any more fuel it finds the same (`chain_eq_ancestors`,
`fuel_irrelevant`), so the walks obey their equations without any.
-/
import Mathlib.Data.List.Perm.Subperm
import Mathlib.Logic.Relation
import Hypertext.Tree.Writing

namespace Hypertext.Tree

variable {t : Tree}

/-- `a` is reached from `d` by following parents, one step or more. -/
def Above (t : Tree) : NodeId → NodeId → Prop :=
  Relation.TransGen fun p c => t.parent? c = some p

/-- Parents and children agree, texts hold nothing, documents hang nowhere, and following parents
never comes back. -/
structure Linked (t : Tree) : Prop where
  mem_children : ∀ p c, c ∈ t.children p ↔ t.parent? c = some p
  nodup : ∀ p, (t.children p).Nodup
  text_leaf : ∀ id s, t.text? id = some s → t.children id = []
  document_top : ∀ id, t.content? id = some .document → t.parent? id = none
  acyclic : ∀ id, ¬ t.Above id id

/-! ## Known nodes -/

theorem node?_isSome {id : NodeId} : (t.node? id).isSome = true ↔ id.index < t.size := by
  simp [node?, size]

theorem node?_eq_none {id : NodeId} : t.node? id = none ↔ t.size ≤ id.index := by
  simp [node?, size]

/-- The number the next node will have. -/
theorem node?_size : t.node? ⟨t.size⟩ = none :=
  node?_eq_none.mpr (Nat.le_refl _)

theorem lt_size_of_content? {id : NodeId} {c : Content} (h : t.content? id = some c) :
    id.index < t.size := by
  rw [← node?_isSome]
  simp only [content?, Option.map_eq_some_iff] at h
  obtain ⟨n, hn, -⟩ := h
  simp [hn]

theorem exists_content? {id : NodeId} (h : id.index < t.size) : ∃ c, t.content? id = some c := by
  obtain ⟨n, hn⟩ := Option.isSome_iff_exists.mp (node?_isSome.mpr h)
  exact ⟨n.content, by simp [content?, hn]⟩

/-- Only a known node has a parent. -/
theorem lt_size_of_parent? {p c : NodeId} (h : t.parent? c = some p) : c.index < t.size := by
  rw [← node?_isSome]
  simp only [parent?, Option.bind_eq_some_iff] at h
  obtain ⟨n, hn, -⟩ := h
  simp [hn]

/-- Only a known node has children. -/
theorem lt_size_of_mem_children {p c : NodeId} (h : c ∈ t.children p) : p.index < t.size := by
  rw [← node?_isSome]
  cases hn : t.node? p with
  | none => simp [children, hn] at h
  | some n => rfl

theorem children_eq_nil_of_size_le {p : NodeId} (h : t.size ≤ p.index) : t.children p = [] := by
  simp [children, node?_eq_none.mpr h]

theorem parent?_eq_none_of_size_le {c : NodeId} (h : t.size ≤ c.index) : t.parent? c = none := by
  simp [parent?, node?_eq_none.mpr h]

theorem children_size (t : Tree) : t.children ⟨t.size⟩ = [] :=
  children_eq_nil_of_size_le (Nat.le_refl _)

theorem parent?_size (t : Tree) : t.parent? ⟨t.size⟩ = none :=
  parent?_eq_none_of_size_le (Nat.le_refl _)

theorem element?_eq_some {id : NodeId} {e : Element} :
    t.element? id = some e ↔ t.content? id = some (.element e) := by
  simp only [element?]
  split <;> simp_all

theorem text?_eq_some {id : NodeId} {s : String} :
    t.text? id = some s ↔ t.content? id = some (.text s) := by
  simp only [text?]
  split <;> simp_all

theorem text?_congr {t' : Tree} {id : NodeId} (h : t'.content? id = t.content? id) :
    t'.text? id = t.text? id := by
  rw [text?, text?, h]

theorem element?_congr {t' : Tree} {id : NodeId} (h : t'.content? id = t.content? id) :
    t'.element? id = t.element? id := by
  rw [element?, element?, h]

theorem isElement_iff {id : NodeId} :
    t.isElement id = true ↔ ∃ e, t.content? id = some (.element e) := by
  simp only [isElement, Option.isSome_iff_exists, element?_eq_some]

theorem not_isElement_of_text? {id : NodeId} {s : String} (h : t.text? id = some s) :
    ¬ t.isElement id = true := by
  rw [isElement_iff, text?_eq_some.mp h]
  simp

theorem mem_ids {id : NodeId} : id ∈ t.ids ↔ id.index < t.size := by
  simp only [ids, List.mem_map, List.mem_range]
  exact ⟨fun ⟨_, h, e⟩ => e ▸ h, fun h => ⟨id.index, h, rfl⟩⟩

/-- Distinct known nodes are no more than there are. -/
theorem length_le_size {l : List NodeId} (hn : l.Nodup) (hk : ∀ id ∈ l, id.index < t.size) :
    l.length ≤ t.size := by
  have hsub : l ⊆ t.ids := fun id h => mem_ids.mpr (hk id h)
  simpa [ids] using (List.subperm_of_subset hn hsub).length_le

/-! ## Landmarks -/

theorem documentElement?_eq_some {html : NodeId} (h : t.documentElement? = some html) :
    html ∈ t.children root ∧ t.isElement html = true :=
  ⟨List.mem_of_find?_eq_some h, List.find?_some h⟩

theorem section?_eq_some {tag : String} {id : NodeId} (h : t.section? tag = some id) :
    ∃ html, t.documentElement? = some html ∧ id ∈ t.children html ∧ t.tag? id = some tag := by
  rw [section?, Option.bind_eq_some_iff] at h
  obtain ⟨html, hhtml, h⟩ := h
  exact ⟨html, hhtml, List.mem_of_find?_eq_some h, by simpa using List.find?_some h⟩

theorem isElement_of_tag? {id : NodeId} {tag : String} (h : t.tag? id = some tag) :
    t.isElement id = true := by
  rw [tag?, Option.map_eq_some_iff] at h
  obtain ⟨e, he, -⟩ := h
  rw [isElement, he]
  rfl

/-! ## Upwards -/

theorem above_iff {a d : NodeId} :
    t.Above a d ↔ ∃ p, t.parent? d = some p ∧ (a = p ∨ t.Above a p) := by
  constructor
  · intro h
    cases h with
    | single h => exact ⟨a, h, .inl rfl⟩
    | tail h hp => exact ⟨_, hp, .inr h⟩
  · rintro ⟨p, hp, rfl | h⟩
    · exact .single hp
    · exact .tail h hp

theorem Above.lt_size {a d : NodeId} (h : t.Above a d) : d.index < t.size := by
  obtain ⟨p, hp, -⟩ := above_iff.mp h
  exact lt_size_of_parent? hp

theorem Above.trans {a b d : NodeId} (h : t.Above a b) (h' : t.Above b d) : t.Above a d :=
  Relation.TransGen.trans h h'

/-- What a walk upwards from `start` meets. -/
theorem mem_chain {x : NodeId} : ∀ {n : Nat} {start : Option NodeId}, x ∈ t.chain n start →
    ∃ id, start = some id ∧ (x = id ∨ t.Above x id)
  | 0, _, h => by simp [chain] at h
  | _ + 1, none, h => by simp [chain] at h
  | n + 1, some id, h => by
    refine ⟨id, rfl, ?_⟩
    simp only [chain, List.mem_cons] at h
    rcases h with rfl | h
    · exact .inl rfl
    · obtain ⟨p, hp, hx⟩ := mem_chain h
      exact .inr (above_iff.mpr ⟨p, hp, hx⟩)

/-- A walk that ends before its fuel does is the whole way. -/
theorem chain_eq_of_length_lt : ∀ {n m : Nat} {start : Option NodeId},
    (t.chain n start).length < n → n ≤ m → t.chain m start = t.chain n start
  | 0, _, _, h, _ => by simp at h
  | _ + 1, 0, _, _, hm => by omega
  | _ + 1, _ + 1, none, _, _ => rfl
  | n + 1, m + 1, some id, h, hm => by
    simp only [chain, List.length_cons] at h ⊢
    rw [chain_eq_of_length_lt (n := n) (m := m) (by omega) (by omega)]

/-! ## Downwards -/

theorem children_of_node? {id : NodeId} {n : Node} (h : t.node? id = some n) :
    t.children id = n.children := by
  simp [children, h]

namespace Linked

variable (hl : t.Linked)
include hl

theorem parent_lt_size {p c : NodeId} (h : t.parent? c = some p) : p.index < t.size :=
  lt_size_of_mem_children ((hl.mem_children p c).mpr h)

theorem child_lt_size {p c : NodeId} (h : c ∈ t.children p) : c.index < t.size :=
  lt_size_of_parent? ((hl.mem_children p c).mp h)

theorem above_lt_size {a d : NodeId} (h : t.Above a d) : a.index < t.size := by
  obtain ⟨b, h, -⟩ := Relation.TransGen.head'_iff.mp h
  exact hl.parent_lt_size h

/-- Following parents never meets a node twice. -/
theorem chain_nodup : ∀ (n : Nat) (start : Option NodeId), (t.chain n start).Nodup
  | 0, _ => by simp [chain]
  | _ + 1, none => by simp [chain]
  | n + 1, some id => by
    simp only [chain, List.nodup_cons]
    refine ⟨fun h => ?_, chain_nodup n _⟩
    obtain ⟨p, hp, h⟩ := mem_chain h
    exact hl.acyclic id (above_iff.mpr ⟨p, hp, h⟩)

theorem chain_length_lt (n : Nat) {id : NodeId} (hid : id.index < t.size) :
    (t.chain n (t.parent? id)).length < t.size := by
  have hnodup : (t.chain (n + 1) (some id)).Nodup := hl.chain_nodup _ _
  have hknown : ∀ x ∈ t.chain (n + 1) (some id), x.index < t.size := by
    intro x hx
    obtain ⟨_, h, hx⟩ := mem_chain hx
    cases h
    rcases hx with rfl | hx
    · exact hid
    · exact hl.above_lt_size hx
  have := length_le_size hnodup hknown
  simp only [chain, List.length_cons] at this
  omega

theorem length_ancestors_lt {id : NodeId} (hid : id.index < t.size) :
    (t.ancestors id).length < t.size :=
  hl.chain_length_lt _ hid

/-- No walk to the ancestors runs out of fuel. -/
theorem chain_eq_ancestors {n : Nat} (hn : t.size ≤ n) (id : NodeId) :
    t.chain n (t.parent? id) = t.ancestors id := by
  by_cases hid : id.index < t.size
  · exact chain_eq_of_length_lt (hl.chain_length_lt _ hid) hn
  · rw [ancestors, parent?_eq_none_of_size_le (by omega)]
    cases n <;> cases t.size <;> rfl

theorem ancestors_eq (id : NodeId) :
    t.ancestors id = match t.parent? id with
      | none => []
      | some p => p :: t.ancestors p := by
  rw [← hl.chain_eq_ancestors (Nat.le_succ t.size)]
  split
  · next h => rw [h]; rfl
  · next p h => rw [h]; rfl

theorem ancestors_of_parent? {p c : NodeId} (h : t.parent? c = some p) :
    t.ancestors c = p :: t.ancestors p := by
  rw [hl.ancestors_eq, h]

theorem mem_ancestors {a d : NodeId} : a ∈ t.ancestors d ↔ t.Above a d := by
  constructor
  · intro h
    obtain ⟨p, hp, h⟩ := mem_chain h
    exact above_iff.mpr ⟨p, hp, h⟩
  · intro h
    induction h with
    | single h => rw [hl.ancestors_of_parent? h]; exact List.mem_cons_self
    | tail _ h ih => rw [hl.ancestors_of_parent? h]; exact List.mem_cons_of_mem _ ih

theorem isDescendant_iff {a d : NodeId} : t.isDescendant d a = true ↔ t.Above a d := by
  rw [isDescendant, List.contains_iff_mem, hl.mem_ancestors]

/-- Above is below read the other way: the same nodes are reached through children. -/
theorem above_eq_below : t.Above = Relation.TransGen fun p c => c ∈ t.children p := by
  unfold Above
  congr 1
  funext p c
  exact propext (hl.mem_children p c).symm

theorem length_ancestors_lt_of_above {a d : NodeId} (h : t.Above a d) :
    (t.ancestors a).length < (t.ancestors d).length := by
  induction h with
  | single h => rw [hl.ancestors_of_parent? h]; exact Nat.lt_succ_self _
  | tail _ h ih => rw [hl.ancestors_of_parent? h]; exact Nat.lt_succ_of_lt ih

/-- Walking upwards ends. -/
theorem wellFounded_above : WellFounded t.Above :=
  Subrelation.wf hl.length_ancestors_lt_of_above (measure fun d => (t.ancestors d).length).wf

/-- Walking downwards ends. -/
theorem wellFounded_below : WellFounded fun d a => t.Above a d := by
  refine Subrelation.wf (fun {d a} h => ?_) (measure fun d => t.size - (t.ancestors d).length).wf
  have hd := hl.length_ancestors_lt h.lt_size
  have ha := hl.length_ancestors_lt_of_above h
  show t.size - (t.ancestors d).length < t.size - (t.ancestors a).length
  omega

/-- A function that descends along children, at most `n` levels, does not depend on `n` where that
is no less than the levels there are. -/
theorem fuel_irrelevant {α : Type} {f : Nat → NodeId → α}
    (step : ∀ n m id, (∀ c ∈ t.children id, f n c = f m c) → f (n + 1) id = f (m + 1) id) :
    ∀ {n m : Nat} {id : NodeId}, id.index < t.size → t.size ≤ n + (t.ancestors id).length →
      t.size ≤ m + (t.ancestors id).length → f n id = f m id
  | 0, _, _, hid, hn, _ => by have := hl.length_ancestors_lt hid; omega
  | _ + 1, 0, _, hid, _, hm => by have := hl.length_ancestors_lt hid; omega
  | n + 1, m + 1, id, _, hn, hm => by
    refine step n m id fun c hc => ?_
    have hp := hl.ancestors_of_parent? ((hl.mem_children id c).mp hc)
    refine fuel_irrelevant step (hl.child_lt_size hc) ?_ ?_ <;>
      rw [hp, List.length_cons] <;> omega

/-! ### What the walks of a linked tree find -/

theorem write_eq_outer {n : Nat} (hn : t.size ≤ n) (id : NodeId) : t.write n id = t.outer id := by
  by_cases hid : id.index < t.size
  · refine hl.fuel_irrelevant (f := t.write) (fun n m id h => ?_) hid (by omega) (by omega)
    cases hnode : t.node? id with
    | none => simp only [write, hnode]
    | some node =>
      rw [children_of_node? hnode] at h
      simp only [write, hnode, List.map_congr_left h]
  · have hnode := node?_eq_none.mpr (Nat.le_of_not_lt hid)
    rw [outer]
    cases n <;> cases t.size <;> simp only [write, hnode]

/-- The markup of a node in terms of its children's. -/
theorem outer_eq (id : NodeId) :
    t.outer id = match t.node? id with
      | none => ""
      | some n =>
        match n.content with
        | .document => String.join (n.children.map t.outer)
        | .text s => s
        | .element e =>
          if isVoid e.tag then e.startTag
          else e.startTag ++ String.join (n.children.map t.outer) ++ e.endTag := by
  rw [← hl.write_eq_outer (Nat.le_succ t.size)]
  rfl

theorem textFrom_eq_textContent {n : Nat} (hn : t.size ≤ n) (id : NodeId) :
    t.textFrom n id = t.textContent id := by
  by_cases hid : id.index < t.size
  · refine hl.fuel_irrelevant (f := t.textFrom) (fun n m id h => ?_) hid (by omega) (by omega)
    simp only [textFrom, List.map_congr_left h]
  · have htext : t.text? id = none := by
      simp only [text?, content?, node?_eq_none.mpr (Nat.le_of_not_lt hid), Option.map_none]
    have hnil := children_eq_nil_of_size_le (Nat.le_of_not_lt hid)
    rw [textContent]
    cases n <;> cases t.size <;> simp only [textFrom, htext, hnil] <;> rfl

end Linked

end Hypertext.Tree
