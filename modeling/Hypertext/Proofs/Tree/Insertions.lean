/-
What insertions and removals do to a tree, all of it (`insertions_exact`), and
when insertions are refused (`insertions_refused`).

A change is told of the whole arena: a new node at the end of its parent's
children (`Gained`), or a node that has left where it hung and hangs elsewhere
(`Moved`). Wrappers are gained first, each in the one before, and the child
then moves into the innermost.
-/
import Hypertext.Proofs.Tree.InPlace

namespace Hypertext.Tree

/-- `t'` is `t` with one more node, an element of that tag without attributes, as the last child of
`p`. -/
structure Gained (t t' : Tree) (p : NodeId) (tag : String) : Prop where
  size : t'.size = t.size + 1
  content : ∀ x, t'.content? x = if x = ⟨t.size⟩ then some (.element { tag }) else t.content? x
  parent : ∀ x, t'.parent? x = if x = ⟨t.size⟩ then some p else t.parent? x
  children : ∀ x, t'.children x = if x = p then t.children x ++ [⟨t.size⟩] else t.children x

/-- `t'` is `t` but for one node, which has left its parent's children and come under `target`, if
there is one, where `place` has arranged it with the others. -/
structure Moved (t t' : Tree) (id : NodeId) (target : Option NodeId)
    (place : List NodeId → List NodeId) : Prop where
  size : t'.size = t.size
  content : ∀ x, t'.content? x = t.content? x
  parent : ∀ x, t'.parent? x = if x = id then target else t.parent? x
  children : ∀ x, t'.children x =
    if target = some x then place ((t.children x).filter (· ≠ id)) else (t.children x).filter (· ≠ id)

/-- `t'` is `t` with new elements of these tags, the first as the last child of `p` and each in the
one before; `target` is the last of them, or `p` where there are none. -/
inductive Wrapped : Tree → NodeId → List String → Tree → NodeId → Prop where
  | nil {t : Tree} {p : NodeId} : Wrapped t p [] t p
  | cons {t t₁ t' : Tree} {p target : NodeId} {tag : String} {tags : List String} :
    Gained t t₁ p tag → Wrapped t₁ ⟨t.size⟩ tags t' target → Wrapped t p (tag :: tags) t' target

/-- The wrappers that the child needs under `parent`, the outermost first: for an element under the
document an `HTML`, unless it is one; under an `HTML`, that one or another, a `BODY`, unless it is a
`HEAD` or a `BODY`. -/
def wrappers (t : Tree) (parent child : NodeId) : List String :=
  match t.tag? child with
  | none => []
  | some tag =>
    let inner := if tag = "HEAD" ∨ tag = "BODY" then [] else ["BODY"]
    if parent = root ∧ tag ≠ "HTML" then "HTML" :: inner
    else if t.tag? parent = some "HTML" then inner
    else []

/-- What keeps the child from coming under `parent`. -/
inductive Barred (t : Tree) (parent child : NodeId) : Prop where
  | unknownParent : t.size ≤ parent.index → Barred t parent child
  | unknownChild : t.size ≤ child.index → Barred t parent child
  | underText {s : String} : t.text? parent = some s → Barred t parent child
  | document : t.content? child = some .document → Barred t parent child
  | same : child = parent → Barred t parent child
  | above : t.Above child parent → Barred t parent child

/-- The child is an element to come under the document, which has one already. -/
structure Crowded (t : Tree) (parent child : NodeId) : Prop where
  parent : parent = root
  element : t.isElement child = true
  other : ∃ other ∈ t.children root, t.isElement other = true

variable {t t' : Tree} {parent child node reference id : NodeId}

/-! ## Moves -/

theorem Linked.moved_link (hl : t.Linked) (hf : t.Fits parent child)
    (place : List NodeId → List NodeId) :
    Moved t (t.link parent child place) child (some parent) place where
  size := size_link
  content := content?_link
  parent := parent?_link hf.child_lt_size
  children x := by
    rw [children_link hf.parent_lt_size, hl.children_remove]
    simp only [Option.some.injEq, eq_comm]

theorem Linked.moved_remove (hl : t.Linked) (id : NodeId) :
    Moved t (t.remove id) id none (fun others => others) where
  size := size_remove t id
  content := content?_remove t id
  parent := parent?_remove t id
  children x := by rw [hl.children_remove, ite_self]

/-- What is put before a member of a list stands right before its first place. -/
theorem putBefore_eq {x y : NodeId} {l : List NodeId} (h : y ∈ l) :
    ∃ before after, l = before ++ y :: after ∧ putBefore x y l = before ++ x :: y :: after := by
  induction l with
  | nil => simp at h
  | cons z zs ih =>
    rw [putBefore]
    by_cases hz : z = y
    · exact ⟨[], zs, by simp [hz], by simp [hz]⟩
    · obtain ⟨before, after, hsplit, hput⟩ := ih ((List.mem_cons.mp h).resolve_left (Ne.symm hz))
      exact ⟨z :: before, after, by simp [hsplit], by simp [hz, hput]⟩

/-! ## Wrappers -/

theorem Linked.gained_wrapper (hl : t.Linked) (hf : t.Fits parent child) {tag : String}
    (htag : tag.toUpper = tag) : Gained t (t.wrapper parent tag).2 parent tag := by
  obtain ⟨c, hc, htext⟩ := hf.holds
  have hcontent : Content.element (.ofTag tag) ≠ .document := by simp
  have hfit := fits_create hl hcontent hc htext
  rw [wrapper_eq]
  refine ⟨?_, fun x => ?_, fun x => ?_, fun x => ?_⟩
  · rw [size_attach, size_create]
  · rw [content?_attach, content?_create, Element.ofTag, htag]
  · rw [parent?_attach hfit.child_lt_size, parent?_create]
  · simp only [children_attach hfit.parent_lt_size, Tree.children_remove, parent?_create, parent?_size,
      children_create, reduceCtorEq, if_false]

/-- Under an `HTML` the wrapper is a `BODY`, if there is one. -/
theorem Linked.wrapped_section (hl : t.Linked) (hf : t.Fits parent child) (tag : String) :
    let place := if tag ≠ "HEAD" ∧ tag ≠ "BODY" then t.wrapper parent "BODY" else (parent, t)
    Wrapped t parent (if tag = "HEAD" ∨ tag = "BODY" then [] else ["BODY"]) place.2 place.1 := by
  by_cases hinner : tag = "HEAD" ∨ tag = "BODY"
  · have hplain : ¬ (tag ≠ "HEAD" ∧ tag ≠ "BODY") := fun h => hinner.elim h.1 h.2
    simp only [if_pos hinner, if_neg hplain]
    exact .nil
  · simp only [if_neg hinner, if_pos (not_or.mp hinner)]
    exact .cons (hl.gained_wrapper hf (by decide +kernel)) .nil

/-- A shelter is made of the wrappers that the element needs. -/
theorem Linked.wrapped_shelter (hl : t.Linked) (hf : t.Fits parent child) {tag : String}
    (htag : t.tag? child = some tag) :
    Wrapped t parent (t.wrappers parent child) (t.shelter parent tag).2 (t.shelter parent tag).1 := by
  simp only [wrappers, htag, Tree.shelter]
  by_cases houter : parent = root ∧ tag ≠ "HTML"
  · obtain ⟨hl', hf'⟩ := hl.wrapper hf "HTML"
    have hHTML : "HTML".toUpper = "HTML" := by decide +kernel
    have hgained := hl.gained_wrapper hf hHTML
    have hcontent := (hgained.content (t.wrapper parent "HTML").1).trans (if_pos rfl)
    have hhtml : (t.wrapper parent "HTML").2.tag? (t.wrapper parent "HTML").1 = some "HTML" := by
      rw [tag?, element?_eq_some.mpr hcontent, Option.map_some]
    simp only [if_pos houter, hhtml, true_and]
    exact .cons hgained (hl'.wrapped_section hf' tag)
  · simp only [if_neg houter]
    by_cases hhtml : t.tag? parent = some "HTML"
    · simp only [hhtml, true_and, if_true]
      exact hl.wrapped_section hf tag
    · simp only [hhtml, false_and, if_false]
      exact .nil

/-! ## Refusals -/

theorem barred_iff : t.Barred parent child ↔ ¬ t.Fits parent child := by
  constructor
  · rintro h ⟨⟨c, hc, htext⟩, ⟨d, hd, hdocument⟩, hne, habove⟩
    cases h with
    | unknownParent h => exact absurd (lt_size_of_content? hc) (Nat.not_lt.mpr h)
    | unknownChild h => exact absurd (lt_size_of_content? hd) (Nat.not_lt.mpr h)
    | underText h => exact htext _ (Option.some.inj (hc.symm.trans (text?_eq_some.mp h)))
    | document h => exact hdocument (Option.some.inj (hd.symm.trans h))
    | same h => exact hne h.symm
    | above h => exact habove h
  · intro h
    by_contra hfree
    have hparent : parent.index < t.size := Nat.lt_of_not_le fun h => hfree (.unknownParent h)
    have hchild : child.index < t.size := Nat.lt_of_not_le fun h => hfree (.unknownChild h)
    obtain ⟨c, hc⟩ := exists_content? hparent
    obtain ⟨d, hd⟩ := exists_content? hchild
    refine h ((fits_iff hc hd).mpr ⟨?_, ?_, fun h => hfree (.same h.symm), fun h => hfree (.above h)⟩)
    · rintro s rfl
      exact hfree (.underText (text?_eq_some.mpr hc))
    · rintro rfl
      exact hfree (.document hd)

theorem crowded_iff : t.Crowded parent child ↔
    (∃ tag, t.tag? child = some tag) ∧ parent = root ∧ t.documentElement?.isSome = true := by
  have helement : t.isElement child = true ↔ ∃ tag, t.tag? child = some tag := by
    simp [isElement, tag?, Option.isSome_iff_exists]
  rw [documentElement?, List.find?_isSome, ← helement]
  exact ⟨fun h => ⟨h.element, h.parent, h.other⟩, fun h => ⟨h.2.1, h.1, h.2.2⟩⟩

theorem Linked.misplacement?_of_barred (hl : t.Linked) (h : t.Barred parent child) :
    ∃ reason, t.misplacement? parent child = some reason :=
  Option.ne_none_iff_exists'.mp fun hnone => barred_iff.mp h (hl.misplacement?_eq_none.mp hnone)

/-- An append is refused if the child may not come under the parent, or would be a second element
below the document. -/
theorem Linked.append_cases (hl : t.Linked) (parent child : NodeId) :
    (t.Barred parent child ∧
      ∃ reason, t.append parent child = .error (.misplaced parent child reason)) ∨
    (¬ t.Barred parent child ∧ t.Crowded parent child ∧
      t.append parent child = .error .secondRoot) ∨
    (¬ t.Barred parent child ∧ ¬ t.Crowded parent child ∧ ∃ t', t.append parent child = .ok t') := by
  by_cases hbarred : t.Barred parent child
  · obtain ⟨reason, hreason⟩ := hl.misplacement?_of_barred hbarred
    exact .inl ⟨hbarred, reason, by simp only [Tree.append, hreason]⟩
  · have hf : t.Fits parent child := by simpa [barred_iff] using hbarred
    have happend := hl.append_of_fits hf
    cases htag : t.tag? child with
    | none =>
      have hcrowded : ¬ t.Crowded parent child := by simp [crowded_iff, htag]
      simp only [htag] at happend
      exact .inr (.inr ⟨hbarred, hcrowded, _, happend⟩)
    | some tag =>
      simp only [htag] at happend
      by_cases hcrowded : t.Crowded parent child
      · rw [if_pos (crowded_iff.mp hcrowded).2] at happend
        exact .inr (.inl ⟨hbarred, hcrowded, happend⟩)
      · rw [if_neg fun h => hcrowded (crowded_iff.mpr ⟨⟨tag, htag⟩, h⟩)] at happend
        exact .inr (.inr ⟨hbarred, hcrowded, _, happend⟩)

/-- An insertion is refused if the node may not come under the parent, or the reference is not
there. -/
theorem Linked.insertBefore_cases (hl : t.Linked) (parent node reference : NodeId) :
    (t.Barred parent node ∧
      ∃ reason, t.insertBefore parent node reference = .error (.misplaced parent node reason)) ∨
    (¬ t.Barred parent node ∧ reference ∉ t.children parent ∧
      t.insertBefore parent node reference = .error (.notAChild parent reference)) ∨
    (¬ t.Barred parent node ∧ reference ∈ t.children parent ∧
      ∃ t', t.insertBefore parent node reference = .ok t') := by
  by_cases hbarred : t.Barred parent node
  · obtain ⟨reason, hreason⟩ := hl.misplacement?_of_barred hbarred
    exact .inl ⟨hbarred, reason, by simp only [Tree.insertBefore, hreason]⟩
  · have hf : t.Fits parent node := by simpa [barred_iff] using hbarred
    by_cases hreference : reference ∈ t.children parent
    · exact .inr (.inr ⟨hbarred, hreference, _, hl.insertBefore_ok_iff.mpr ⟨hf, hreference, rfl⟩⟩)
    · refine .inr (.inl ⟨hbarred, hreference, ?_⟩)
      simp only [Tree.insertBefore, hl.misplacement?_eq_none.mpr hf, hreference, not_false_eq_true,
        if_true]

/-! ## Main results -/

/-- **What a mutation does to a tree, and nothing else.** An append that succeeds makes the wrappers
the child needs and moves it to the end of the innermost, or of the parent itself; an insertion that
succeeds moves the node right before the reference; a removal moves it out. Carried out in place
they leave the same trees, and insertions answer with the node. -/
theorem insertions_exact (hl : t.Linked) :
    (∀ parent child t', t.append parent child = .ok t' →
      (∃ t₁ target, Wrapped t parent (t.wrappers parent child) t₁ target ∧
        Moved t₁ t' child (some target) (· ++ [child])) ∧
      (t.content? root = some .document →
        ∀ n, (InPlace.append (n + 2) parent child).on t = (.ok child, t'))) ∧
    (∀ parent node reference t', t.insertBefore parent node reference = .ok t' →
      (if node = reference then t' = t
        else ∃ before after,
          (t.children parent).filter (· ≠ node) = before ++ reference :: after ∧
          Moved t t' node (some parent) fun _ => before ++ node :: reference :: after) ∧
      (InPlace.insertBefore parent node reference).on t = (.ok node, t')) ∧
    ∀ id, Moved t (t.remove id) id none (fun others => others) ∧
      (InPlace.remove id).on t = (.ok (), t.remove id) := by
  refine ⟨fun parent child t' happend => ⟨?_, fun hdocument n => ?_⟩,
    fun parent node reference t' hinsert => ⟨?_, ?_⟩,
    fun id => ⟨hl.moved_remove id, InPlace.remove_on hl id⟩⟩
  · obtain ⟨hf, htree⟩ := hl.append_ok_iff.mp happend
    cases htag : t.tag? child with
    | none =>
      simp only [htag] at htree
      refine ⟨t, parent, ?_, ?_⟩
      · rw [wrappers, htag]
        exact .nil
      · rw [htree]
        exact hl.moved_link hf _
    | some tag =>
      simp only [htag] at htree
      obtain ⟨hl', hf'⟩ := hl.shelter hf tag
      refine ⟨_, _, hl.wrapped_shelter hf htag, ?_⟩
      rw [htree.2]
      exact hl'.moved_link hf' _
  · rw [InPlace.append_on hl hdocument, happend]
    rfl
  · obtain ⟨hf, hreference, htree⟩ := hl.insertBefore_ok_iff.mp hinsert
    split
    · next hsame => rw [htree, if_pos hsame]
    · next hne =>
      rw [if_neg hne] at htree
      have hmem : reference ∈ (t.children parent).filter (· ≠ node) :=
        List.mem_filter.mpr ⟨hreference, by simpa using Ne.symm hne⟩
      obtain ⟨before, after, hsplit, hput⟩ := putBefore_eq (x := node) hmem
      refine ⟨before, after, hsplit, ?_⟩
      have hmoved := hl.moved_link hf (putBefore node reference)
      rw [← htree] at hmoved
      refine ⟨hmoved.size, hmoved.content, hmoved.parent, fun x => ?_⟩
      rw [hmoved.children]
      split
      · next hx => rw [← Option.some.inj hx, hput]
      · rfl
  · rw [InPlace.insertBefore_on hl, hinsert]
    rfl

/-- A `P` appended to the document comes under two new wrappers. -/
theorem insertions_exact_sheltered :
    let t := empty.mutateAll [.createElement "p"]
    t.Linked ∧ ∃ t' t₁ target, t.append root ⟨1⟩ = .ok t' ∧
      Wrapped t root ["HTML", "BODY"] t₁ target ∧
      Moved t₁ t' ⟨1⟩ (some target) (· ++ [⟨1⟩]) ∧
      (InPlace.append 2 root ⟨1⟩).on t = (.ok ⟨1⟩, t') ∧
      (InPlace.remove ⟨1⟩).on t = (.ok (), t.remove ⟨1⟩) := by
  intro t
  have hl : t.Linked := linked_empty.mutateAll _
  have hdocument : t.content? root = some .document := by decide +kernel
  have hwrappers : t.wrappers root ⟨1⟩ = ["HTML", "BODY"] := by decide +kernel
  have hok : (t.append root ⟨1⟩).isOk = true := by decide +kernel
  obtain ⟨happends, -, hremoves⟩ := insertions_exact hl
  cases happend : t.append root ⟨1⟩ with
  | error e =>
    rw [happend] at hok
    cases hok
  | ok t' =>
    obtain ⟨⟨t₁, target, hwrapped, hmoved⟩, hinPlace⟩ := happends root ⟨1⟩ t' happend
    rw [hwrappers] at hwrapped
    exact ⟨hl, t', t₁, target, rfl, hwrapped, hmoved, hinPlace hdocument 0, (hremoves ⟨1⟩).2⟩

/-- **When insertions are refused.** After any mutations of the empty tree an append is refused just
where the child may not come under the parent or would be a second element below the document, an
insertion just where the node may not or the reference is not there. Carried out in place a refused
call leaves the arena as it was, and no call meets a node that is missing. -/
theorem insertions_refused (ms : List Mutation) :
    let t := empty.mutateAll ms
    (∀ parent child,
      ((∃ reason, t.append parent child = .error (.misplaced parent child reason)) ↔
        t.Barred parent child) ∧
      (t.append parent child = .error .secondRoot ↔
        ¬ t.Barred parent child ∧ t.Crowded parent child) ∧
      ((∃ t', t.append parent child = .ok t') ↔
        ¬ t.Barred parent child ∧ ¬ t.Crowded parent child) ∧
      ∀ n, (InPlace.append (n + 2) parent child).on t =
        InPlace.settled t child (t.append parent child)) ∧
    (∀ parent node reference,
      ((∃ reason, t.insertBefore parent node reference = .error (.misplaced parent node reason)) ↔
        t.Barred parent node) ∧
      (t.insertBefore parent node reference = .error (.notAChild parent reference) ↔
        ¬ t.Barred parent node ∧ reference ∉ t.children parent) ∧
      ((∃ t', t.insertBefore parent node reference = .ok t') ↔
        ¬ t.Barred parent node ∧ reference ∈ t.children parent) ∧
      (InPlace.insertBefore parent node reference).on t =
        InPlace.settled t node (t.insertBefore parent node reference)) ∧
    ∀ id, (InPlace.remove id).on t = (.ok (), t.remove id) := by
  intro t
  have hl : t.Linked := linked_empty.mutateAll ms
  have hdocument : t.content? root = some .document :=
    (linked_empty.keeps_mutateAll ms).document rfl
  refine ⟨fun parent child => ?_, fun parent node reference => ?_, InPlace.remove_on hl⟩
  · have hinPlace := fun n => InPlace.append_on hl hdocument n parent child
    obtain ⟨hbarred, reason, h⟩ | ⟨hfree, hcrowded, h⟩ | ⟨hfree, hroom, t', h⟩ :=
      hl.append_cases parent child
    · simp [h, hbarred, hinPlace]
    · simp [h, hfree, hcrowded, hinPlace]
    · simp [h, hfree, hroom, hinPlace]
  · have hinPlace := InPlace.insertBefore_on hl parent node reference
    obtain ⟨hbarred, reason, h⟩ | ⟨hfree, habsent, h⟩ | ⟨hfree, hthere, t', h⟩ :=
      hl.insertBefore_cases parent node reference
    · simp [h, hbarred, hinPlace]
    · simp [h, hfree, habsent, hinPlace]
    · simp [h, hfree, hthere, hinPlace]

end Hypertext.Tree
