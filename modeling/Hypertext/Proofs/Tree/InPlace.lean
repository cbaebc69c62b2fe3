/-
Mutations carried out in place do what the tree's own do (`append_on`,
`insertBefore_on`, `remove_on`). A call that is refused is refused by its
checks, when nothing has been written: past them no node is missing, the
wrappers are appended, and the reference is still among the children once the
node has been taken out.

All this is for linked trees. Appending calls itself for wrappers only, and a
wrapper needs no other one, unless the document is no document but an `HTML`.
-/
import Hypertext.Tree.InPlace
import Hypertext.Proofs.Tree.Shape

namespace Hypertext.Tree

variable {t : Tree} {parent child id : NodeId}

/-- What is made of a node depends on nothing but that node. -/
theorem modify_congr {f g : Node → Node} (h : ∀ n, t.node? id = some n → f n = g n) :
    t.modify id f = t.modify id g := by
  have hnodes : t.nodes.modify id.index f = t.nodes.modify id.index g := by
    refine Array.ext_getElem? fun i => ?_
    rw [Array.getElem?_modify, Array.getElem?_modify]
    split
    · next hi =>
      subst hi
      exact Option.map_congr fun n hn => h n hn
    · rfl
  rw [modify, modify, hnodes]

/-- A member of a list has a first place there, and what is inserted there stands in front of it. -/
theorem exists_place {x y : NodeId} {l : List NodeId} (h : y ∈ l) :
    ∃ place, l.idxOf? y = some place ∧ l.insertIdx place x = putBefore x y l := by
  induction l with
  | nil => simp at h
  | cons z zs ih =>
    rw [List.idxOf?_cons, putBefore]
    by_cases hz : z = y
    · exact ⟨0, by simp [hz], by simp [hz]⟩
    · obtain ⟨place, hplace, hinsert⟩ := ih ((List.mem_cons.mp h).resolve_left (Ne.symm hz))
      refine ⟨place + 1, by simp [hz, hplace], ?_⟩
      rw [List.insertIdx_succ_cons, hinsert, if_neg hz]

namespace InPlace

variable {α β : Type} {n : Nat}

/-! ## Calls -/

theorem on_bind (call : Call α) (next : α → Call β) (t : Tree) :
    (call >>= next).on t = match call.on t with
      | (.ok a, t') => (next a).on t'
      | (.error h, t') => (.error h, t') := by
  have hstep : (call >>= next).on t = ExceptT.bindCont next (call.on t).1 (call.on t).2 := rfl
  rw [hstep]
  rcases call.on t with ⟨_ | a, t'⟩ <;> rfl

@[simp] theorem on_pure (a : α) (t : Tree) : (pure a : Call α).on t = (.ok a, t) := rfl

@[simp] theorem on_throw (h : Halt) (t : Tree) : (throw h : Call α).on t = (.error h, t) := rfl

@[simp] theorem on_get (t : Tree) : (get : Call Tree).on t = (.ok t, t) := rfl

@[simp] theorem on_set (t t' : Tree) : (set t' : Call PUnit).on t = (.ok ⟨⟩, t') := rfl

/-! ## Single nodes -/

theorem fetch_on {node : Node} (h : t.node? id = some node) : (fetch id).on t = (.ok node, t) := by
  simp only [fetch, on_bind, on_get, h, on_pure]

theorem alter_on (h : id.index < t.size) (f : Node → Node) :
    (alter id f).on t = (.ok (), t.modify id f) := by
  obtain ⟨node, hnode⟩ := Option.isSome_iff_exists.mp (node?_isSome.mpr h)
  simp only [alter, on_bind, fetch_on hnode, on_get, on_set]

theorem create_on (content : Content) (t : Tree) :
    (create content).on t = (.ok (t.create content).1, (t.create content).2) := rfl

/-! ## Links -/

theorem check_on (t : Tree) (parent child : NodeId) :
    (check parent child).on t = match t.misplacement? parent child with
      | some reason => (.error (.refused (.misplaced parent child reason)), t)
      | none => (.ok (), t) := by
  simp only [check, on_bind, on_get]
  cases t.misplacement? parent child <;> rfl

theorem remove_on (hl : t.Linked) (id : NodeId) : (remove id).on t = (.ok (), t.remove id) := by
  simp only [remove, on_bind, on_get, Tree.remove]
  cases hp : t.parent? id with
  | none => rfl
  | some parent =>
    have hid : id.index < (t.modify parent fun n => { n with
        children := n.children.filter (· ≠ id) }).size := by
      rw [size_modify]
      exact lt_size_of_parent? hp
    simp only [on_bind, alter_on (hl.parent_lt_size hp), alter_on hid]

/-- Once the node has been taken out, all that is left to go wrong is to find it a place. -/
theorem move_on (hl : t.Linked) (hf : t.Fits parent child)
    {arrange : List NodeId → Call (List NodeId)} {place : List NodeId → List NodeId}
    (h : (arrange ((t.remove child).children parent)).on (t.remove child) =
      (.ok (place ((t.remove child).children parent)), t.remove child)) :
    (move parent child arrange).on t = (.ok child, t.link parent child place) := by
  have hparent : parent.index < (t.remove child).size := by
    rw [size_remove]
    exact hf.parent_lt_size
  obtain ⟨node, hnode⟩ := Option.isSome_iff_exists.mp (node?_isSome.mpr hparent)
  rw [children_of_node? hnode] at h
  have hsame : (t.remove child).modify parent (fun n => { n with children := place n.children }) =
      (t.remove child).modify parent fun n => { n with children := place node.children } := by
    refine modify_congr fun n hn => ?_
    rw [Option.some.inj (hn.symm.trans hnode)]
  have hchild : child.index < ((t.remove child).modify parent fun n =>
      { n with children := place node.children }).size := by
    rw [size_modify, size_remove]
    exact hf.child_lt_size
  simp only [move, on_bind, remove_on hl, fetch_on hnode, h, alter_on hparent, alter_on hchild,
    on_pure, link, hsame]

theorem move_last_on (hl : t.Linked) (hf : t.Fits parent child) :
    (move parent child (placeLast child)).on t = (.ok child, t.attach parent child) :=
  move_on hl hf (on_pure _ _)

theorem insertBefore_on (hl : t.Linked) (parent node reference : NodeId) :
    (insertBefore parent node reference).on t =
      settled t node (t.insertBefore parent node reference) := by
  simp only [insertBefore, Tree.insertBefore, on_bind, check_on]
  cases hplaced : t.misplacement? parent node with
  | some reason => rfl
  | none =>
    have hf := hl.misplacement?_eq_none.mp hplaced
    simp only [on_get]
    by_cases hreference : reference ∈ t.children parent
    · by_cases hsame : node = reference
      · simp [hreference, hsame, settled]
      · have hmem : reference ∈ (t.remove node).children parent := by
          rw [hl.children_remove, List.mem_filter]
          exact ⟨hreference, by simpa using Ne.symm hsame⟩
        obtain ⟨place, hplace, hinsert⟩ := exists_place (x := node) hmem
        have hmove : (move parent node (placeBefore parent node reference)).on t =
            (.ok node, t.link parent node (putBefore node reference)) :=
          move_on hl hf (by simp only [placeBefore, hplace, on_pure, hinsert])
        simp [hreference, hsame, settled, hmove]
    · simp [hreference, settled]

/-! ## Appending -/

/-- Where no wrapper is needed, appending does not call itself. -/
theorem append_plain_on (hl : t.Linked) (hf : t.Fits parent child)
    (hplain : ∀ tag, t.tag? child = some tag →
      (parent = root → t.documentElement? = none ∧ tag = "HTML") ∧
      (t.tag? parent = some "HTML" → tag = "HEAD" ∨ tag = "BODY")) :
    (append (n + 1) parent child).on t = (.ok child, t.attach parent child) := by
  have hmove := move_last_on hl hf
  simp only [append, on_bind, check_on, hl.misplacement?_eq_none.mpr hf, on_get]
  cases htag : t.tag? child with
  | none => simp only [on_bind, on_pure, hmove]
  | some tag =>
    obtain ⟨hroot, hhtml⟩ := hplain tag htag
    have hfirst : ¬ (parent = root ∧ t.documentElement?.isSome = true) := by
      rintro ⟨h, hsome⟩
      simp [(hroot h).1] at hsome
    have houter : ¬ (parent = root ∧ tag ≠ "HTML") := fun h => h.2 (hroot h.1).2
    have hinner : ¬ (t.tag? parent = some "HTML" ∧ tag ≠ "HEAD" ∧ tag ≠ "BODY") := by
      rintro ⟨h, hhead, hbody⟩
      exact (hhtml h).elim hhead hbody
    simp only [shelter, raise, on_bind, on_get, hfirst, houter, hinner, if_false, on_pure, hmove,
      decide_false, Bool.false_eq_true]

/-- A wrapper for a node that fits is appended as it is. -/
theorem raise_on (hl : t.Linked) (hf : t.Fits parent child) {tag : String} (htag : tag.toUpper = tag)
    (needed : Bool)
    (hroot : needed = true → parent = root → t.documentElement? = none ∧ tag = "HTML")
    (hhtml : needed = true → t.tag? parent = some "HTML" → tag = "HEAD" ∨ tag = "BODY") :
    (raise (append (n + 1)) needed parent tag).on t =
      let raised := if needed = true then t.wrapper parent tag else (parent, t)
      (.ok raised.1, raised.2) := by
  cases needed with
  | false => rfl
  | true =>
    obtain ⟨c, hc, htext⟩ := hf.holds
    have hcontent : Content.element (.ofTag tag) ≠ .document := by simp
    have hfit := fits_create hl hcontent hc htext
    simp only [raise, on_bind, create_on, create_fst, if_true]
    refine append_plain_on (hl.create _) hfit fun tag' htag' => ?_
    rw [tag?_create_self, Option.some.injEq] at htag'
    rw [documentElement?_create hl, tag?_create_of_lt _ hf.parent_lt_size, ← htag']
    simp only [Element.ofTag, htag]
    exact ⟨hroot rfl, hhtml rfl⟩

theorem shelter_on (hl : t.Linked) (hdocument : t.tag? root = none) (hf : t.Fits parent child)
    (tag : String) :
    (shelter (append (n + 1)) parent tag).on t =
      if parent = root ∧ t.documentElement?.isSome then (.error (.refused .secondRoot), t)
      else (.ok (t.shelter parent tag).1, (t.shelter parent tag).2) := by
  by_cases hsecond : parent = root ∧ t.documentElement?.isSome = true
  · simp only [shelter, on_bind, on_get, hsecond, and_self, if_true, on_throw]
  · have hfirst : parent = root → t.documentElement? = none := fun h => by simpa [h] using hsecond
    have hHTML : "HTML".toUpper = "HTML" := by decide +kernel
    have hBODY : "BODY".toUpper = "BODY" := by decide +kernel
    have houter := raise_on (n := n) hl hf hHTML (decide (parent = root ∧ tag ≠ "HTML"))
      (fun _ h => ⟨hfirst h, rfl⟩) fun h hhtml => by
        rw [(of_decide_eq_true h).1, hdocument] at hhtml
        cases hhtml
    simp only [shelter, on_bind, on_get, hsecond, if_false, houter, Tree.shelter,
      decide_eq_true_eq]
    generalize hraised : (if parent = root ∧ tag ≠ "HTML" then t.wrapper parent "HTML"
      else (parent, t)) = raised
    obtain ⟨hl', hf', hne⟩ : raised.2.Linked ∧ raised.2.Fits raised.1 child ∧
        (raised.2.tag? raised.1 = some "HTML" → raised.1 ≠ root) := by
      subst hraised
      split
      · obtain ⟨hl', hf'⟩ := hl.wrapper hf "HTML"
        refine ⟨hl', hf', fun _ => ?_⟩
        rw [wrapper_eq, root, ne_eq, NodeId.mk.injEq]
        exact Nat.ne_of_gt (Nat.zero_lt_of_lt hf.parent_lt_size)
      · refine ⟨hl, hf, fun hhtml heq => ?_⟩
        rw [heq, hdocument] at hhtml
        cases hhtml
    have hinner := raise_on (n := n) hl' hf' hBODY
      (decide (raised.2.tag? raised.1 = some "HTML" ∧ tag ≠ "HEAD" ∧ tag ≠ "BODY"))
      (fun h hroot => absurd hroot (hne (of_decide_eq_true h).1)) fun _ _ => .inr rfl
    simp only [hinner, decide_eq_true_eq]

theorem append_on (hl : t.Linked) (hdocument : t.content? root = some .document) (n : Nat)
    (parent child : NodeId) :
    (append (n + 2) parent child).on t = settled t child (t.append parent child) := by
  rw [append]
  simp only [Tree.append, on_bind, check_on]
  cases hplaced : t.misplacement? parent child with
  | some reason => rfl
  | none =>
    have hf := hl.misplacement?_eq_none.mp hplaced
    simp only [on_get]
    cases htag : t.tag? child with
    | none =>
      simp only [on_bind, on_pure, move_last_on hl hf, settled]
    | some tag =>
      simp only [on_bind, shelter_on hl (tag?_document hdocument) hf]
      by_cases hsecond : parent = root ∧ t.documentElement?.isSome = true
      · simp [hsecond, settled]
      · obtain ⟨hl', hf'⟩ := hl.shelter hf tag
        simp only [hsecond, if_false, move_last_on hl' hf', settled]

end InPlace

end Hypertext.Tree
