/-
Trees with nodes taken out. A node that is taken out has no parent and keeps
what is below it; all else is as it was, each child in its place. How often
and in which order the nodes were taken out is no matter (`Pruned.unique`),
and whatever grows on a tree grows on a pruned one in the same way.

Above a node a pruned tree has what the whole tree has there, up to the first
node that is gone (`Pruned.above_iff`).
-/
import Hypertext.Proofs.Tree.Lines
import Hypertext.Proofs.Tree.Moves

namespace Hypertext.Tree

/-- The tree `t'` is `t` with the nodes `gone` taken out. -/
structure Pruned (gone : List NodeId) (t t' : Tree) : Prop where
  size : t'.size = t.size
  content : ∀ id, t'.content? id = t.content? id
  parent : ∀ id, t'.parent? id = if id ∈ gone then none else t.parent? id
  children : ∀ id, t'.children id = (t.children id).filter (· ∉ gone)

/-- The tree with nodes taken out one after the other. -/
def removeAll (t : Tree) (gone : List NodeId) : Tree :=
  gone.foldl remove t

variable {t t' u : Tree} {gone gone' : List NodeId} {a d id : NodeId}

theorem Pruned.refl (t : Tree) : Pruned [] t t where
  size := rfl
  content _ := rfl
  parent _ := rfl
  children _ := by simp

theorem Pruned.congr (h : Pruned gone t t') (hgone : ∀ x, x ∈ gone ↔ x ∈ gone') :
    Pruned gone' t t' where
  size := h.size
  content := h.content
  parent x := by simp only [h.parent, hgone]
  children x := by simp only [h.children, hgone]

/-- Two trees with the same contents and links are the same. -/
theorem eq_of_links (hsize : t'.size = t.size) (hcontent : ∀ id, t'.content? id = t.content? id)
    (hparent : ∀ id, t'.parent? id = t.parent? id)
    (hchildren : ∀ id, t'.children id = t.children id) : t' = t := by
  obtain ⟨nodes⟩ := t
  obtain ⟨nodes'⟩ := t'
  congr 1
  refine Array.ext hsize fun i hi hi' => ?_
  have hnode' : nodes'[i]? = some nodes'[i] := Array.getElem?_eq_getElem hi
  have hnode : nodes[i]? = some nodes[i] := Array.getElem?_eq_getElem hi'
  have hc := hcontent ⟨i⟩
  have hp := hparent ⟨i⟩
  have hch := hchildren ⟨i⟩
  simp only [content?, parent?, children, node?, hnode, hnode', Option.map_some, Option.bind_some,
    Option.getD_some, Option.some.injEq] at hc hp hch
  generalize nodes'[i] = n' at *
  generalize nodes[i] = n at *
  cases n
  cases n'
  simp_all

/-- Only which nodes are gone tells one pruned tree from another. -/
theorem Pruned.unique (h : Pruned gone t t') (h' : Pruned gone t u) : t' = u :=
  eq_of_links (by rw [h.size, h'.size]) (fun x => by rw [h.content, h'.content])
    (fun x => by rw [h.parent, h'.parent]) (fun x => by rw [h.children, h'.children])

/-! ## What is above and below -/

theorem Pruned.above (h : Pruned gone t t') (had : t'.Above a d) : t.Above a d := by
  refine Relation.TransGen.mono (fun p c hp => ?_) a d had
  rw [h.parent] at hp
  split at hp
  · cases hp
  · exact hp

theorem Pruned.linked (h : Pruned gone t t') (hl : t.Linked) : t'.Linked where
  mem_children p c := by
    rw [h.children, h.parent, List.mem_filter, hl.mem_children]
    by_cases hc : c ∈ gone <;> simp [hc]
  nodup p := by
    rw [h.children]
    exact (hl.nodup p).filter _
  text_leaf x s hx := by
    rw [text?_eq_some, h.content] at hx
    rw [h.children, hl.text_leaf x s (text?_eq_some.mpr hx), List.filter_nil]
  document_top x hx := by
    rw [h.content] at hx
    rw [h.parent, hl.document_top x hx, ite_self]
  acyclic x hx := hl.acyclic x (h.above hx)

theorem Pruned.parent_eq_some (h : Pruned gone t t') {p : NodeId} :
    t'.parent? d = some p ↔ d ∉ gone ∧ t.parent? d = some p := by
  rw [h.parent]
  by_cases hd : d ∈ gone <;> simp [hd]

/-- A node stays above another where nothing on the way is gone. -/
theorem Pruned.above_iff (h : Pruned gone t t') (hl : t.Linked) :
    t'.Above a d ↔ t.Above a d ∧ ∀ b, t.Above a b → t.Covers b d → b ∉ gone := by
  constructor
  · intro had
    refine ⟨h.above had, ?_⟩
    induction had with
    | single hp =>
      obtain ⟨hgone, hp⟩ := h.parent_eq_some.mp hp
      intro b hab hbd
      rcases (covers_iff hp).mp hbd with rfl | hba
      · exact hgone
      · exact absurd hba (hl.not_covers_of_above hab)
    | tail _ hp ih =>
      obtain ⟨hgone, hp⟩ := h.parent_eq_some.mp hp
      intro b hab hbd
      rcases (covers_iff hp).mp hbd with rfl | hbc
      · exact hgone
      · exact ih b hab hbc
  · rintro ⟨had, hfree⟩
    induction had with
    | single hp => exact .single (h.parent_eq_some.mpr ⟨hfree _ (.single hp) (.refl t _), hp⟩)
    | tail had hp ih =>
      refine .tail (ih fun b hab hbd => hfree b hab (hbd.trans (.inr (.single hp)))) ?_
      exact h.parent_eq_some.mpr ⟨hfree _ (.tail had hp) (.refl t _), hp⟩

/-- Where nothing above is gone, nor the node itself, the ancestors are the same. -/
theorem Pruned.ancestors_eq (h : Pruned gone t t') (hl : t.Linked)
    (hfree : ∀ b, t.Covers b d → b ∉ gone) : t'.ancestors d = t.ancestors d := by
  induction d using hl.wellFounded_above.induction with
  | _ d ih =>
    rw [(h.linked hl).ancestors_eq, hl.ancestors_eq, h.parent, if_neg (hfree d (.refl t d))]
    cases hp : t.parent? d with
    | none => rfl
    | some p =>
      simp only
      rw [ih p (.single hp) fun b hb => hfree b ((covers_iff hp).mpr (.inr hb))]

/-- What is between a node and one above it is the same where nothing of it is gone. -/
theorem Pruned.takeWhile_ancestors (h : Pruned gone t t') (hl : t.Linked) (had : t.Above a d)
    (hfree : ∀ b, t.Above a b → t.Covers b d → b ∉ gone) :
    (t'.ancestors d).takeWhile (· ≠ a) = (t.ancestors d).takeWhile (· ≠ a) := by
  induction d using hl.wellFounded_above.induction with
  | _ d ih =>
    obtain ⟨p, hp, hap⟩ := Tree.above_iff.mp had
    have hp' := h.parent_eq_some.mpr ⟨hfree d had (.refl t d), hp⟩
    rw [(h.linked hl).ancestors_of_parent? hp', hl.ancestors_of_parent? hp]
    rcases hap with rfl | hap
    · simp
    · have hne : p ≠ a := fun heq => hl.acyclic a (heq ▸ hap)
      rw [List.takeWhile_cons_of_pos (by simpa using hne),
        List.takeWhile_cons_of_pos (by simpa using hne),
        ih p (.single hp) hap fun b hab hbp => hfree b hab ((covers_iff hp).mpr (.inr hbp))]

/-- What is left of the ancestors below `a`. -/
theorem Pruned.mem_takeWhile_ancestors (h : Pruned gone t t') (hl : t.Linked) (had : t.Above a d) :
    id ∈ (t'.ancestors d).takeWhile (· ≠ a) ↔ t.Above a id ∧ t'.Above id d := by
  induction d using hl.wellFounded_above.induction with
  | _ d ih =>
    obtain ⟨p, hp, hap⟩ := Tree.above_iff.mp had
    by_cases hd : d ∈ gone
    · have hnone : t'.parent? d = none := by rw [h.parent, if_pos hd]
      rw [(h.linked hl).ancestors_eq, hnone]
      simp [not_above_of_parent?_none hnone]
    · have hp' := h.parent_eq_some.mpr ⟨hd, hp⟩
      rw [(h.linked hl).ancestors_of_parent? hp', above_iff_covers hp']
      rcases hap with rfl | hap
      · simp only [ne_eq, not_true_eq_false, decide_false, Bool.false_eq_true,
          not_false_eq_true, List.takeWhile_cons_of_neg, List.not_mem_nil, false_iff, not_and]
        exact fun hab hba => hl.not_covers_of_above hab (hba.imp_right h.above)
      · have hne : p ≠ a := fun heq => hl.acyclic a (heq ▸ hap)
        rw [List.takeWhile_cons_of_pos (by simpa using hne), List.mem_cons, ih p (.single hp) hap]
        constructor
        · rintro (rfl | ⟨hab, hbp⟩)
          · exact ⟨hap, .refl t' _⟩
          · exact ⟨hab, .inr hbp⟩
        · rintro ⟨hab, rfl | hbp⟩
          · exact .inl rfl
          · exact .inr ⟨hab, hbp⟩

/-! ## Taking out -/

/-- One more node is taken out. -/
theorem Pruned.remove (h : Pruned gone t t') (hl : t.Linked) (id : NodeId) :
    Pruned (id :: gone) t (t'.remove id) where
  size := by rw [size_remove, h.size]
  content x := by rw [content?_remove, h.content]
  parent x := by
    rw [parent?_remove, h.parent]
    by_cases hx : x = id <;> simp [hx]
  children x := by
    rw [(h.linked hl).children_remove, h.children, List.filter_filter]
    refine List.filter_congr fun c _ => ?_
    simp

theorem Linked.pruned_removeAll (hl : t.Linked) (gone : List NodeId) :
    Pruned gone t (t.removeAll gone) := by
  have hfold : ∀ (l done : List NodeId) (t' : Tree), Pruned done t t' →
      Pruned (l ++ done) t (t'.removeAll l) := by
    intro l
    induction l with
    | nil => exact fun _ _ h => h
    | cons id l ih =>
      intro done t' h
      exact (ih _ _ (h.remove hl id)).congr (by simp [or_left_comm])
  simpa using hfold gone [] t (.refl t)

/-- A node that is gone has been taken out for good. -/
theorem remove_of_parent?_none (hp : t.parent? id = none) : t.remove id = t := by
  rw [Tree.remove, hp]

/-! ## Growing -/

section Growing

variable {content : Content} {parent child : NodeId}

theorem Pruned.element?_eq (h : Pruned gone t t') : t'.element? = t.element? := by
  funext x
  rw [element?, h.content, element?]

theorem Pruned.tag?_eq (h : Pruned gone t t') : t'.tag? = t.tag? := by
  funext x
  rw [tag?, h.element?_eq, tag?]

/-- A document element that is left was one before. -/
theorem Pruned.documentElement?_isSome (h : Pruned gone t t')
    (hsome : t'.documentElement?.isSome = true) : t.documentElement?.isSome = true := by
  rw [documentElement?, List.find?_isSome] at hsome ⊢
  obtain ⟨id, hid, helement⟩ := hsome
  rw [h.children] at hid
  rw [isElement, h.element?_eq] at helement
  exact ⟨id, (List.mem_filter.mp hid).1, helement⟩

theorem Pruned.create (h : Pruned gone t t') (content : Content) :
    Pruned gone (t.create content).2 (t'.create content).2 where
  size := by rw [size_create, size_create, h.size]
  content x := by rw [content?_create, content?_create, h.size, h.content]
  parent x := by rw [parent?_create, parent?_create, h.parent]
  children x := by rw [children_create, children_create, h.children]

theorem Pruned.attach (h : Pruned gone t t') (hl : t.Linked) (hp : parent.index < t.size)
    (hc : child.index < t.size) (hgone : child ∉ gone) :
    Pruned gone (t.attach parent child) (t'.attach parent child) where
  size := by rw [size_attach, size_attach, h.size]
  content x := by rw [content?_attach, content?_attach, h.content]
  parent x := by
    rw [parent?_attach (by rw [h.size]; exact hc), parent?_attach hc, h.parent]
    by_cases hx : x = child
    · subst hx
      simp [hgone]
    · simp [hx]
  children x := by
    have hremoved : (t'.remove child).children x = ((t.remove child).children x).filter (· ∉ gone) := by
      rw [(h.linked hl).children_remove, hl.children_remove, h.children, List.filter_filter,
        List.filter_filter]
      simp only [Bool.and_comm]
    rw [children_attach (by rw [h.size]; exact hp), children_attach hp, hremoved]
    by_cases hx : x = parent
    · simp [hx, hgone]
    · simp [hx]

theorem Pruned.wrapper (h : Pruned gone t t') (hl : t.Linked) (hgone : ∀ x ∈ gone, x.index < t.size)
    (hp : parent.index < t.size) (tag : String) :
    (t'.wrapper parent tag).1 = (t.wrapper parent tag).1 ∧
      Pruned gone (t.wrapper parent tag).2 (t'.wrapper parent tag).2 := by
  rw [wrapper_eq, wrapper_eq, h.size]
  refine ⟨rfl, (h.create _).attach (hl.create _) ?_ ?_ ?_⟩
  · rw [size_create]
    exact Nat.lt_succ_of_lt hp
  · rw [size_create]
    exact Nat.lt_succ_self _
  · exact fun hmem => Nat.lt_irrefl _ (hgone _ hmem)

/-- Shelters are the same, with the same wrappers. -/
theorem Pruned.shelter (h : Pruned gone t t') (hl : t.Linked) (hgone : ∀ x ∈ gone, x.index < t.size)
    (hf : t.Fits parent child) (tag : String) :
    (t'.shelter parent tag).1 = (t.shelter parent tag).1 ∧
      Pruned gone (t.shelter parent tag).2 (t'.shelter parent tag).2 := by
  have hsecond : ∀ {t t' : Tree} {parent : NodeId}, Pruned gone t t' → t.Linked →
      (∀ x ∈ gone, x.index < t.size) → t.Fits parent child →
      let s := if t.tag? parent = some "HTML" ∧ tag ≠ "HEAD" ∧ tag ≠ "BODY" then
        t.wrapper parent "BODY" else (parent, t)
      let s' := if t'.tag? parent = some "HTML" ∧ tag ≠ "HEAD" ∧ tag ≠ "BODY" then
        t'.wrapper parent "BODY" else (parent, t')
      s'.1 = s.1 ∧ Pruned gone s.2 s'.2 := by
    intro t t' parent h hl hgone hf
    rw [h.tag?_eq]
    split
    · exact h.wrapper hl hgone hf.parent_lt_size _
    · exact ⟨rfl, h⟩
  simp only [Tree.shelter]
  by_cases hroot : parent = root ∧ tag ≠ "HTML"
  · obtain ⟨hsame, hpruned⟩ := h.wrapper hl hgone hf.parent_lt_size "HTML"
    obtain ⟨hl', hf'⟩ := hl.wrapper hf "HTML"
    simp only [if_pos hroot]
    rw [hsame]
    refine hsecond hpruned hl' (fun x hx => ?_) hf'
    exact Nat.lt_of_lt_of_le (hgone x hx) (size_le_size_wrapper _ _ _)
  · simp only [if_neg hroot]
    exact hsecond h hl hgone hf

end Growing

end Hypertext.Tree
