/-
What creating, removing and inserting do to the links of a tree, each told by
its effect on contents, parents and children; and that a linked tree stays
linked. An insertion may go ahead where the node fits (`Fits`), which is just
what the check before it finds out (`misplacement?_eq_none`).
-/
import Mathlib.Data.List.Find
import Hypertext.Tree.Insertion
import Hypertext.Proofs.Tree.Linked

namespace Hypertext.Tree

variable {t : Tree}

/-! ## Creating -/

@[simp] theorem create_fst (t : Tree) (content : Content) : (t.create content).1 = ⟨t.size⟩ := rfl

theorem content?_create (t : Tree) (content : Content) (id : NodeId) :
    (t.create content).2.content? id = if id = ⟨t.size⟩ then some content else t.content? id := by
  by_cases h : id = ⟨t.size⟩ <;> simp [content?, node?_create, h]

@[simp] theorem parent?_create (t : Tree) (content : Content) (id : NodeId) :
    (t.create content).2.parent? id = t.parent? id := by
  by_cases h : id = ⟨t.size⟩
  · simp [parent?, node?_create, h, node?_size]
  · simp [parent?, node?_create, h]

@[simp] theorem children_create (t : Tree) (content : Content) (id : NodeId) :
    (t.create content).2.children id = t.children id := by
  by_cases h : id = ⟨t.size⟩
  · simp [children, node?_create, h, node?_size]
  · simp [children, node?_create, h]

/-- What was known is as it was. -/
theorem content?_create_of_lt (content : Content) {id : NodeId} (h : id.index < t.size) :
    (t.create content).2.content? id = t.content? id := by
  rw [content?_create, if_neg]
  intro heq
  subst heq
  exact Nat.lt_irrefl _ h

@[simp] theorem above_create (t : Tree) (content : Content) :
    (t.create content).2.Above = t.Above := by
  unfold Above
  simp only [parent?_create]

theorem Linked.create (hl : t.Linked) (content : Content) : (t.create content).2.Linked where
  mem_children p c := by simp only [children_create, parent?_create, hl.mem_children]
  nodup p := by simp only [children_create, hl.nodup]
  text_leaf id s h := by
    rw [text?_eq_some, content?_create] at h
    rw [children_create]
    split at h
    · next he => rw [he]; exact children_eq_nil_of_size_le (Nat.le_refl _)
    · exact hl.text_leaf id s (text?_eq_some.mpr h)
  document_top id h := by
    rw [content?_create] at h
    rw [parent?_create]
    split at h
    · next he => rw [he]; exact parent?_eq_none_of_size_le (Nat.le_refl _)
    · exact hl.document_top id h
  acyclic id := by rw [above_create]; exact hl.acyclic id

theorem element?_create_of_lt {id : NodeId} (hid : id.index < t.size) (content : Content) :
    (t.create content).2.element? id = t.element? id :=
  element?_congr (content?_create_of_lt content hid)

theorem documentElement?_create (hl : t.Linked) (content : Content) :
    (t.create content).2.documentElement? = t.documentElement? := by
  rw [documentElement?, children_create, documentElement?]
  refine List.find?_congr fun id hid => ?_
  rw [isElement, element?_create_of_lt (hl.child_lt_size hid), isElement]

/-! ## Changing one node -/

section Modify

variable {f : Node → Node} (changed id : NodeId)

theorem content?_modify (hf : ∀ n, (f n).content = n.content) :
    (t.modify changed f).content? id = t.content? id := by
  simp only [content?, node?_modify]
  split <;> cases t.node? id <;> simp [hf]

theorem parent?_modify (hf : ∀ n, (f n).parent = n.parent) :
    (t.modify changed f).parent? id = t.parent? id := by
  simp only [parent?, node?_modify]
  split <;> cases t.node? id <;> simp [hf]

theorem children_modify (hf : ∀ n, (f n).children = n.children) :
    (t.modify changed f).children id = t.children id := by
  simp only [children, node?_modify]
  split <;> cases t.node? id <;> simp [hf]

@[simp] theorem content?_reparent (p : Option NodeId) :
    (t.modify changed fun n => { n with parent := p }).content? id = t.content? id :=
  content?_modify _ _ fun _ => rfl

@[simp] theorem children_reparent (p : Option NodeId) :
    (t.modify changed fun n => { n with parent := p }).children id = t.children id :=
  children_modify _ _ fun _ => rfl

theorem parent?_reparent (p : Option NodeId) :
    (t.modify changed fun n => { n with parent := p }).parent? id =
      if changed = id ∧ changed.index < t.size then p else t.parent? id := by
  simp only [parent?, node?_modify, ← node?_isSome]
  split
  · next h => subst h; cases t.node? changed <;> simp
  · next h => simp [h]

variable (g : List NodeId → List NodeId)

@[simp] theorem content?_rearrange :
    (t.modify changed fun n => { n with children := g n.children }).content? id = t.content? id :=
  content?_modify _ _ fun _ => rfl

@[simp] theorem parent?_rearrange :
    (t.modify changed fun n => { n with children := g n.children }).parent? id = t.parent? id :=
  parent?_modify _ _ fun _ => rfl

theorem children_rearrange :
    (t.modify changed fun n => { n with children := g n.children }).children id =
      if changed = id ∧ changed.index < t.size then g (t.children id) else t.children id := by
  simp only [children, node?_modify, ← node?_isSome]
  split
  · next h => subst h; cases t.node? changed <;> simp
  · next h => simp [h]

end Modify

/-- An edit inside a node, which leaves its links alone and keeps its kind. -/
structure Inner (f : Node → Node) : Prop where
  parent : ∀ n, (f n).parent = n.parent
  children : ∀ n, (f n).children = n.children
  text : ∀ n s, (f n).content = .text s → ∃ s', n.content = .text s'
  document : ∀ n, (f n).content = .document → n.content = .document

theorem Linked.modify (hl : t.Linked) {f : Node → Node} (hf : Inner f) (changed : NodeId) :
    (t.modify changed f).Linked where
  mem_children p c := by
    rw [children_modify _ _ hf.children, parent?_modify _ _ hf.parent, hl.mem_children]
  nodup p := by rw [children_modify _ _ hf.children]; exact hl.nodup p
  text_leaf id s h := by
    rw [children_modify _ _ hf.children]
    rw [text?_eq_some, content?, node?_modify, Option.map_eq_some_iff] at h
    obtain ⟨n, hn, h⟩ := h
    split at hn
    · obtain ⟨n', hn', rfl⟩ := Option.map_eq_some_iff.mp hn
      obtain ⟨s', hs'⟩ := hf.text n' s h
      exact hl.text_leaf id s' (text?_eq_some.mpr (by simp [content?, hn', hs']))
    · exact hl.text_leaf id s (text?_eq_some.mpr (by simp [content?, hn, h]))
  document_top id h := by
    rw [parent?_modify _ _ hf.parent]
    rw [content?, node?_modify, Option.map_eq_some_iff] at h
    obtain ⟨n, hn, h⟩ := h
    split at hn
    · obtain ⟨n', hn', rfl⟩ := Option.map_eq_some_iff.mp hn
      exact hl.document_top id (by simp [content?, hn', hf.document n' h])
    · exact hl.document_top id (by simp [content?, hn, h])
  acyclic id := by
    have : (t.modify changed f).Above = t.Above := by
      unfold Above
      simp only [parent?_modify _ _ hf.parent]
    rw [this]
    exact hl.acyclic id

/-! ## Removing -/

@[simp] theorem size_remove (t : Tree) (id : NodeId) : (t.remove id).size = t.size := by
  simp only [remove]
  split <;> simp

@[simp] theorem content?_remove (t : Tree) (id x : NodeId) :
    (t.remove id).content? x = t.content? x := by
  simp only [remove]
  split
  · rfl
  · rw [content?_reparent, content?_rearrange]

theorem parent?_remove (t : Tree) (id x : NodeId) :
    (t.remove id).parent? x = if x = id then none else t.parent? x := by
  simp only [remove]
  split
  · next h => split <;> simp_all
  · next p h =>
    rw [parent?_reparent, parent?_rearrange, size_modify]
    simp only [lt_size_of_parent? h, and_true, eq_comm]

theorem children_remove (t : Tree) (id p : NodeId) :
    (t.remove id).children p =
      if t.parent? id = some p then (t.children p).filter (· ≠ id) else t.children p := by
  simp only [remove]
  split
  · next h => simp [h]
  · next q h =>
    rw [children_reparent, children_rearrange _ _ (List.filter (· ≠ id)), h]
    by_cases hqp : q = p
    · subst hqp
      by_cases hq : q.index < t.size
      · simp [hq]
      · simp [hq, children_eq_nil_of_size_le (Nat.le_of_not_lt hq)]
    · simp [hqp]

/-- In a linked tree the removed node is gone from all children. -/
theorem Linked.children_remove (hl : t.Linked) (id p : NodeId) :
    (t.remove id).children p = (t.children p).filter (· ≠ id) := by
  rw [Tree.children_remove]
  split
  · rfl
  · next h =>
    have hid : id ∉ t.children p := fun hm => h ((hl.mem_children p id).mp hm)
    exact (List.filter_eq_self.mpr fun x hx => by
      simpa using fun he : x = id => hid (he ▸ hx)).symm

theorem above_of_above_remove {id a d : NodeId} (h : (t.remove id).Above a d) : t.Above a d := by
  refine Relation.TransGen.mono (fun p c hp => ?_) a d h
  rw [parent?_remove] at hp
  split at hp
  · cases hp
  · exact hp

theorem Linked.remove (hl : t.Linked) (id : NodeId) : (t.remove id).Linked where
  mem_children p c := by
    rw [hl.children_remove, parent?_remove, List.mem_filter, hl.mem_children]
    by_cases hc : c = id <;> simp [hc]
  nodup p := by rw [hl.children_remove]; exact (hl.nodup p).filter _
  text_leaf x s h := by
    rw [text?_eq_some, content?_remove] at h
    rw [hl.children_remove, hl.text_leaf x s (text?_eq_some.mpr h), List.filter_nil]
  document_top x h := by
    rw [content?_remove] at h
    rw [parent?_remove, hl.document_top x h, ite_self]
  acyclic x h := hl.acyclic x (above_of_above_remove h)

/-! ## Where a node fits -/

/-- `child` can come under `parent`. -/
structure Fits (t : Tree) (parent child : NodeId) : Prop where
  holds : ∃ c, t.content? parent = some c ∧ ∀ s, c ≠ .text s
  hangs : ∃ c, t.content? child = some c ∧ c ≠ .document
  ne : parent ≠ child
  not_above : ¬ t.Above child parent

theorem fits_iff {parent child : NodeId} {c d : Content} (hc : t.content? parent = some c)
    (hd : t.content? child = some d) :
    t.Fits parent child ↔
      (∀ s, c ≠ .text s) ∧ d ≠ .document ∧ parent ≠ child ∧ ¬ t.Above child parent := by
  constructor
  · intro h
    obtain ⟨⟨c', hc', htext⟩, ⟨d', hd', hdoc⟩, hne, habove⟩ := h
    cases hc.symm.trans hc'
    cases hd.symm.trans hd'
    exact ⟨htext, hdoc, hne, habove⟩
  · intro h
    obtain ⟨htext, hdoc, hne, habove⟩ := h
    exact ⟨⟨c, hc, htext⟩, ⟨d, hd, hdoc⟩, hne, habove⟩

theorem Linked.misplacement?_eq_none (hl : t.Linked) {parent child : NodeId} :
    t.misplacement? parent child = none ↔ t.Fits parent child := by
  cases hc : t.content? parent with
  | none =>
    simp only [misplacement?, hc, reduceCtorEq, false_iff]
    intro h
    obtain ⟨⟨c, h, -⟩, -, -, -⟩ := h
    cases hc.symm.trans h
  | some c =>
    cases hd : t.content? child with
    | none =>
      simp only [misplacement?, hc, hd, reduceCtorEq, false_iff]
      intro h
      obtain ⟨-, ⟨d, h, -⟩, -, -⟩ := h
      cases hd.symm.trans h
    | some d =>
      rw [fits_iff hc hd]
      cases c <;> cases d <;> simp [misplacement?, hc, hd, hl.isDescendant_iff]

theorem Fits.parent_lt_size {parent child : NodeId} (hf : t.Fits parent child) :
    parent.index < t.size := by
  obtain ⟨_, h, -⟩ := hf.holds
  exact lt_size_of_content? h

theorem Fits.child_lt_size {parent child : NodeId} (hf : t.Fits parent child) :
    child.index < t.size := by
  obtain ⟨_, h, -⟩ := hf.hangs
  exact lt_size_of_content? h

/-! ## Linking -/

section Link

variable {parent child : NodeId} {place : List NodeId → List NodeId}

@[simp] theorem size_link : (t.link parent child place).size = t.size := by
  simp [link]

@[simp] theorem content?_link (x : NodeId) :
    (t.link parent child place).content? x = t.content? x := by
  rw [link, content?_reparent, content?_rearrange, content?_remove]

theorem parent?_link (hc : child.index < t.size) (x : NodeId) :
    (t.link parent child place).parent? x = if x = child then some parent else t.parent? x := by
  rw [link, parent?_reparent, parent?_rearrange, parent?_remove, size_modify, size_remove]
  simp only [hc, and_true, eq_comm (a := child)]
  split <;> rfl

theorem children_link (hp : parent.index < t.size) (x : NodeId) :
    (t.link parent child place).children x =
      if x = parent then place ((t.remove child).children x) else (t.remove child).children x := by
  rw [link, children_reparent, children_rearrange, size_remove]
  simp only [hp, and_true, eq_comm (a := parent)]

/-- Who stands above whom after `child` has come under `parent`. -/
theorem above_link (hc : child.index < t.size) {a d : NodeId}
    (h : (t.link parent child place).Above a d) :
    t.Above a d ∨ (a = parent ∨ t.Above a parent) ∧ (d = child ∨ t.Above child d) := by
  induction h with
  | single h =>
    rw [parent?_link hc] at h
    split at h
    · next hd => cases h; exact .inr ⟨.inl rfl, .inl hd⟩
    · exact .inl (.single h)
  | tail _ h ih =>
    rw [parent?_link hc] at h
    split at h
    · next hd =>
      cases h
      rcases ih with ha | ⟨ha, -⟩
      · exact .inr ⟨.inr ha, .inl hd⟩
      · exact .inr ⟨ha, .inl hd⟩
    · rcases ih with ha | ⟨ha, rfl | hb⟩
      · exact .inl (.tail ha h)
      · exact .inr ⟨ha, .inr (.single h)⟩
      · exact .inr ⟨ha, .inr (.tail hb h)⟩

/-- A node that fits may come under the parent at any place among the children there. -/
theorem Linked.link (hl : t.Linked) (hf : t.Fits parent child)
    (hplace : (place ((t.remove child).children parent)).Perm
      (child :: (t.remove child).children parent)) :
    (t.link parent child place).Linked where
  mem_children p c := by
    rw [children_link hf.parent_lt_size, parent?_link hf.child_lt_size]
    have hr := (hl.remove child).mem_children p c
    rw [parent?_remove] at hr
    by_cases hp : p = parent
    · subst hp
      rw [if_pos rfl, hplace.mem_iff, List.mem_cons, hr]
      by_cases hc : c = child <;> simp [hc]
    · rw [if_neg hp, hr]
      by_cases hc : c = child <;> simp [hc, Ne.symm hp]
  nodup p := by
    rw [children_link hf.parent_lt_size]
    split
    · next hp =>
      rw [hp, hplace.nodup_iff, List.nodup_cons]
      refine ⟨fun h => ?_, (hl.remove child).nodup parent⟩
      rw [(hl.remove child).mem_children, parent?_remove, if_pos rfl] at h
      cases h
    · exact (hl.remove child).nodup p
  text_leaf id s h := by
    rw [text?_eq_some, content?_link] at h
    rw [children_link hf.parent_lt_size, if_neg]
    · exact (hl.remove child).text_leaf id s (text?_eq_some.mpr (by rw [content?_remove]; exact h))
    · intro heq
      subst heq
      obtain ⟨c, hc, htext⟩ := hf.holds
      cases h.symm.trans hc
      exact htext s rfl
  document_top id h := by
    rw [content?_link] at h
    rw [parent?_link hf.child_lt_size, if_neg]
    · exact hl.document_top id h
    · intro heq
      subst heq
      obtain ⟨c, hc, hdoc⟩ := hf.hangs
      cases h.symm.trans hc
      exact hdoc rfl
  acyclic id h := by
    rcases above_link hf.child_lt_size h with h | ⟨rfl | hup, hdown⟩
    · exact hl.acyclic id h
    · rcases hdown with h | h
      · exact hf.ne h
      · exact hf.not_above h
    · rcases hdown with rfl | h
      · exact hf.not_above hup
      · exact hf.not_above (h.trans hup)

@[simp] theorem size_attach (t : Tree) (parent child : NodeId) :
    (t.attach parent child).size = t.size := by
  rw [attach, size_link]

@[simp] theorem content?_attach (t : Tree) (parent child x : NodeId) :
    (t.attach parent child).content? x = t.content? x := by
  rw [attach, content?_link]

theorem parent?_attach (hc : child.index < t.size) (x : NodeId) :
    (t.attach parent child).parent? x = if x = child then some parent else t.parent? x := by
  rw [attach, parent?_link hc]

theorem children_attach (hp : parent.index < t.size) (x : NodeId) :
    (t.attach parent child).children x =
      if x = parent then (t.remove child).children x ++ [child] else (t.remove child).children x := by
  rw [attach, children_link hp]

theorem above_attach (hc : child.index < t.size) {a d : NodeId}
    (h : (t.attach parent child).Above a d) :
    t.Above a d ∨ (a = parent ∨ t.Above a parent) ∧ (d = child ∨ t.Above child d) := by
  rw [attach] at h
  exact above_link hc h

theorem Linked.attach (hl : t.Linked) (hf : t.Fits parent child) :
    (t.attach parent child).Linked :=
  hl.link hf (List.perm_append_singleton _ _)

end Link

theorem putBefore_perm {x y : NodeId} : ∀ {l : List NodeId}, y ∈ l → (putBefore x y l).Perm (x :: l)
  | z :: zs, h => by
    simp only [putBefore]
    split
    · exact .refl _
    · next hz =>
      have hy : y ∈ zs := (List.mem_cons.mp h).resolve_left (Ne.symm hz)
      exact ((putBefore_perm hy).cons z).trans (.swap x z zs)

theorem Linked.insertBefore_ok_iff (hl : t.Linked) {parent node reference : NodeId} {t' : Tree} :
    t.insertBefore parent node reference = .ok t' ↔
      t.Fits parent node ∧ reference ∈ t.children parent ∧
        t' = if node = reference then t else t.link parent node (putBefore node reference) := by
  rw [← hl.misplacement?_eq_none, Tree.insertBefore]
  cases t.misplacement? parent node with
  | some reason => simp
  | none =>
    by_cases href : reference ∈ t.children parent
    · by_cases hne : node = reference <;> simp [href, hne, eq_comm]
    · simp [href]

theorem Linked.insertBefore (hl : t.Linked) {parent node reference : NodeId} {t' : Tree}
    (h : t.insertBefore parent node reference = .ok t') : t'.Linked := by
  obtain ⟨hf, href, h⟩ := hl.insertBefore_ok_iff.mp h
  split at h
  · rw [h]
    exact hl
  · next hne =>
    rw [h]
    refine hl.link hf (putBefore_perm ?_)
    rw [hl.children_remove, List.mem_filter]
    exact ⟨href, by simpa using Ne.symm hne⟩

/-! ## Wrappers -/

section Wrapper

variable {parent child : NodeId}

/-- A node that was just made fits wherever there can be children. -/
theorem fits_create (hl : t.Linked) {content c : Content} (hcontent : content ≠ .document)
    (hc : t.content? parent = some c) (htext : ∀ s, c ≠ .text s) :
    (t.create content).2.Fits parent ⟨t.size⟩ := by
  have hp := lt_size_of_content? hc
  refine (fits_iff (by rw [content?_create_of_lt _ hp, hc])
    (by rw [content?_create, if_pos rfl])).mpr ⟨htext, hcontent, ?_, ?_⟩
  · intro heq
    subst heq
    exact Nat.lt_irrefl _ hp
  · rw [above_create]
    exact fun h => Nat.lt_irrefl _ (hl.above_lt_size h)

theorem wrapper_eq (t : Tree) (parent : NodeId) (tag : String) :
    t.wrapper parent tag =
      (⟨t.size⟩, (t.create (.element (.ofTag tag))).2.attach parent ⟨t.size⟩) := rfl

theorem Linked.wrapper (hl : t.Linked) (hf : t.Fits parent child) (tag : String) :
    (t.wrapper parent tag).2.Linked ∧ (t.wrapper parent tag).2.Fits (t.wrapper parent tag).1 child := by
  obtain ⟨c, hc, htext⟩ := hf.holds
  obtain ⟨d, hd, hdoc⟩ := hf.hangs
  have hfit : (t.create (.element (.ofTag tag))).2.Fits parent ⟨t.size⟩ :=
    fits_create hl (by simp) hc htext
  have hchild := hf.child_lt_size
  rw [wrapper_eq]
  refine ⟨(hl.create _).attach hfit, ?_⟩
  refine (fits_iff (c := .element (.ofTag tag)) (d := d) ?_ ?_).mpr ⟨by simp, hdoc, ?_, ?_⟩
  · rw [content?_attach, content?_create, if_pos rfl]
  · rw [content?_attach, content?_create_of_lt _ hchild, hd]
  · intro heq
    subst heq
    exact Nat.lt_irrefl _ hchild
  · intro h
    have habove := above_attach hfit.child_lt_size h
    rw [above_create] at habove
    rcases habove with h | ⟨h | h, -⟩
    · exact Nat.lt_irrefl _ h.lt_size
    · exact hf.ne h.symm
    · exact hf.not_above h

/-- The shelter of a node that fits is one it fits into. -/
theorem Linked.shelter (hl : t.Linked) (hf : t.Fits parent child) (tag : String) :
    (t.shelter parent tag).2.Linked ∧ (t.shelter parent tag).2.Fits (t.shelter parent tag).1 child := by
  simp only [Tree.shelter]
  by_cases hroot : parent = root ∧ tag ≠ "HTML"
  · obtain ⟨hl', hf'⟩ := hl.wrapper hf "HTML"
    simp only [if_pos hroot]
    split
    · exact hl'.wrapper hf' "BODY"
    · exact ⟨hl', hf'⟩
  · simp only [if_neg hroot]
    split
    · exact hl.wrapper hf "BODY"
    · exact ⟨hl, hf⟩

/-- Appending a node that fits attaches it where it was asked to, or, an element, to its shelter,
unless it would be a second root. -/
theorem Linked.append_of_fits (hl : t.Linked) (hf : t.Fits parent child) :
    t.append parent child = match t.tag? child with
      | none => .ok (t.attach parent child)
      | some tag =>
        if parent = root ∧ t.documentElement?.isSome then .error .secondRoot
        else .ok ((t.shelter parent tag).2.attach (t.shelter parent tag).1 child) := by
  have hplaced := hl.misplacement?_eq_none.mpr hf
  cases htag : t.tag? child with
  | none => simp only [Tree.append, hplaced, htag]
  | some tag => simp only [Tree.append, hplaced, htag]

/-- What a successful append has done. -/
theorem Linked.append_ok_iff (hl : t.Linked) {t' : Tree} :
    t.append parent child = .ok t' ↔ t.Fits parent child ∧
      match t.tag? child with
      | none => t' = t.attach parent child
      | some tag => ¬ (parent = root ∧ t.documentElement?.isSome) ∧
          t' = (t.shelter parent tag).2.attach (t.shelter parent tag).1 child := by
  by_cases hf : t.Fits parent child
  · rw [hl.append_of_fits hf]
    cases t.tag? child with
    | none => simp [hf, eq_comm]
    | some tag =>
      by_cases hroot : parent = root ∧ t.documentElement?.isSome = true
      · simp [hroot]
      · simp only [hf, hroot, ↓reduceIte, not_false_eq_true, true_and, Except.ok.injEq]
        exact eq_comm
  · obtain ⟨reason, h⟩ :=
      Option.ne_none_iff_exists'.mp fun h => hf (hl.misplacement?_eq_none.mp h)
    simp [Tree.append, h, hf]

theorem Linked.append (hl : t.Linked) {t' : Tree} (h : t.append parent child = .ok t') :
    t'.Linked := by
  obtain ⟨hf, h⟩ := hl.append_ok_iff.mp h
  split at h
  · rw [h]
    exact hl.attach hf
  · next tag _ =>
    obtain ⟨hl', hf'⟩ := hl.shelter hf tag
    rw [h.2]
    exact hl'.attach hf'

/-! ### New nodes -/

section New

variable (hl : t.Linked) {c : Content} (hc : t.content? parent = some c) (htext : ∀ s, c ≠ .text s)
include hl hc htext

/-- A new text is never refused by a node that holds children. -/
theorem Linked.append_new_text (s : String) :
    (t.create (.text s)).2.append parent ⟨t.size⟩ =
      .ok ((t.create (.text s)).2.attach parent ⟨t.size⟩) := by
  have htag : (t.create (.text s)).2.tag? ⟨t.size⟩ = none := by
    simp only [tag?, element?, content?_create, ↓reduceIte, Option.map_none]
  have happend := (hl.create (.text s)).append_of_fits (fits_create hl (by simp) hc htext)
  simp only [htag] at happend
  exact happend

/-- Nor is a new element, unless it would be a second root. -/
theorem Linked.append_new_element (e : Element) :
    (t.create (.element e)).2.append parent ⟨t.size⟩ =
      if parent = root ∧ (t.create (.element e)).2.documentElement?.isSome then .error .secondRoot
      else .ok (((t.create (.element e)).2.shelter parent e.tag).2.attach
        ((t.create (.element e)).2.shelter parent e.tag).1 ⟨t.size⟩) := by
  have htag : (t.create (.element e)).2.tag? ⟨t.size⟩ = some e.tag := by
    simp only [tag?, element?, content?_create, ↓reduceIte, Option.map_some]
  have happend := (hl.create (.element e)).append_of_fits (fits_create hl (by simp) hc htext)
  simp only [htag] at happend
  exact happend

end New

/-! ### Contents under insertion -/

theorem content?_wrapper_of_lt (tag : String) {id : NodeId} (h : id.index < t.size) :
    (t.wrapper parent tag).2.content? id = t.content? id := by
  rw [wrapper_eq, content?_attach, content?_create_of_lt _ h]

theorem size_le_size_wrapper (t : Tree) (parent : NodeId) (tag : String) : t.size ≤ (t.wrapper parent tag).2.size := by
  rw [wrapper_eq, size_attach, size_create]
  exact Nat.le_succ _

/-- Wrappers are new nodes; those that were there keep their contents. -/
theorem content?_shelter_of_lt (tag : String) {id : NodeId} (h : id.index < t.size) :
    (t.shelter parent tag).2.content? id = t.content? id ∧
      t.size ≤ (t.shelter parent tag).2.size := by
  have hsize := size_le_size_wrapper t parent
  simp only [shelter]
  by_cases hroot : parent = root ∧ tag ≠ "HTML"
  · simp only [if_pos hroot]
    split
    · rw [content?_wrapper_of_lt _ (Nat.lt_of_lt_of_le h (hsize _)), content?_wrapper_of_lt _ h]
      exact ⟨rfl, Nat.le_trans (hsize _) (size_le_size_wrapper _ _ _)⟩
    · exact ⟨content?_wrapper_of_lt _ h, hsize _⟩
  · simp only [if_neg hroot]
    split
    · exact ⟨content?_wrapper_of_lt _ h, hsize _⟩
    · exact ⟨rfl, Nat.le_refl _⟩

theorem Linked.content?_append (hl : t.Linked) {t' : Tree} (h : t.append parent child = .ok t')
    {id : NodeId} (hid : id.index < t.size) :
    t'.content? id = t.content? id ∧ t.size ≤ t'.size := by
  obtain ⟨-, h⟩ := hl.append_ok_iff.mp h
  split at h
  · rw [h, content?_attach, size_attach]
    exact ⟨rfl, Nat.le_refl _⟩
  · rw [h.2, content?_attach, size_attach]
    exact content?_shelter_of_lt _ hid

end Wrapper

end Hypertext.Tree
