/-
The open elements and the tree. The stack is kept apart from the tree, so that
observers may move what is open; where nobody does, it tells the way from the
document down to the insertion point (`Line`). A start tag opens what it puts
between the insertion point and its element, which may have been closed before;
so the element's ancestors are what is open then. An end tag takes what is open
from the top, which leaves the ancestors of what it closes.
-/
import Mathlib.Data.List.Chain
import Hypertext.Proofs.Markup.EndTags

namespace Hypertext

namespace Tree.Linked

variable {t : Tree} {a d : NodeId} {front back : List NodeId}

section Lines

variable (hl : t.Linked)
include hl

theorem nodup_cons_ancestors (id : NodeId) : (id :: t.ancestors id).Nodup :=
  hl.chain_nodup (t.size + 1) (some id)

/-- Each of a node and its ancestors has the next one for its parent. -/
theorem isChain_cons_ancestors (id : NodeId) :
    (id :: t.ancestors id).IsChain fun child parent => t.parent? child = some parent := by
  induction id using hl.wellFounded_above.induction with
  | _ id ih =>
    cases hp : t.parent? id with
    | none =>
      rw [hl.ancestors_eq, hp]
      exact .singleton _
    | some p =>
      rw [hl.ancestors_of_parent? hp]
      exact .cons_cons hp (ih p (.single hp))

/-- What stands on the way up has the rest of the way above it. -/
theorem ancestors_of_cons_ancestors (h : d :: t.ancestors d = front ++ a :: back) :
    t.ancestors a = back := by
  induction front generalizing d with
  | nil =>
    obtain ⟨rfl, hback⟩ := List.cons.inj h
    exact hback
  | cons x front ih =>
    obtain ⟨-, htail⟩ := List.cons.inj h
    cases hp : t.parent? d with
    | none =>
      rw [hl.ancestors_eq, hp] at htail
      simp at htail
    | some p =>
      rw [hl.ancestors_of_parent? hp] at htail
      exact ih htail

/-- The way up, cut at what stands above. -/
theorem ancestors_cut (h : t.Above a d) :
    t.ancestors d = (t.ancestors d).takeWhile (· ≠ a) ++ a :: t.ancestors a := by
  obtain ⟨after, hdrop⟩ : ∃ after, (t.ancestors d).dropWhile (· ≠ a) = a :: after := by
    cases hdrop : (t.ancestors d).dropWhile (· ≠ a) with
    | nil => simpa using List.dropWhile_eq_nil_iff.mp hdrop a (hl.mem_ancestors.mpr h)
    | cons x after =>
      have hhead := List.head?_dropWhile_not (· ≠ a) (t.ancestors d)
      rw [hdrop] at hhead
      exact ⟨after, by simpa using hhead⟩
  have hsplit := List.takeWhile_append_dropWhile (p := (· ≠ a)) (l := t.ancestors d)
  rw [hdrop] at hsplit
  have hway : d :: t.ancestors d = (d :: (t.ancestors d).takeWhile (· ≠ a)) ++ a :: after := by
    rw [List.cons_append, hsplit]
  rw [hl.ancestors_of_cons_ancestors hway]
  exact hsplit.symm

end Lines

end Tree.Linked

namespace Markup.Growth

/-! ## The way to the insertion point -/

/-- The insertion point and its ancestors are what is open, the innermost first, and the document. -/
def Line (os : List OpenElement) (t : Tree) : Prop :=
  top os :: t.ancestors (top os) = os.map (·.id) ++ [Tree.root]

section Lines

variable {os inside rest : List OpenElement} {o : OpenElement} {t t' : Tree} {id : NodeId}

theorem line_empty : Line [] .empty := rfl

/-- What has all that is open above it comes under the innermost. -/
theorem line_of_ancestors (hl : t.Linked) (h : t.ancestors id = os.map (·.id) ++ [Tree.root]) :
    t.parent? id = some (top os) ∧ Line os t := by
  have hhead : (os.map (·.id) ++ [Tree.root]).head? = some (top os) := by
    cases os <;> rfl
  cases hp : t.parent? id with
  | none =>
    rw [hl.ancestors_eq, hp] at h
    simp at h
  | some p =>
    rw [hl.ancestors_of_parent? hp] at h
    rw [← h, List.head?_cons, Option.some.injEq] at hhead
    subst hhead
    exact ⟨rfl, h⟩

theorem Line.begins (h : Line os t) (hl : t.Linked) (hl' : t'.Linked) (hbegins : t.Begins t')
    (hknown : (top os).index < t.size) : Line os t' := by
  rw [Line, hbegins.ancestors_eq hl hl' hknown]
  exact h

/-- Under the innermost open element, with what stands between open too. -/
theorem Line.ancestors_below (h : Line os t) (hl : t.Linked) (habove : t.Above (top os) id) :
    t.ancestors id =
      (List.map (fun x => (⟨x, false⟩ : OpenElement)) ((t.ancestors id).takeWhile (· ≠ top os)) ++
        os).map (·.id) ++ [Tree.root] := by
  have hcut := hl.ancestors_cut habove
  rw [h] at hcut
  rw [List.map_append, List.map_map, List.append_assoc]
  simpa [Function.comp_def] using hcut

/-- An open element stands in the one that was open before it, and the line goes on from there. -/
theorem Line.closed (h : Line (inside ++ o :: rest) t) (hl : t.Linked) :
    t.parent? o.id = some (top rest) ∧ Line rest t := by
  rw [Line, List.map_append, List.append_assoc, List.map_cons, List.cons_append] at h
  exact line_of_ancestors hl (hl.ancestors_of_cons_ancestors h)

end Lines

/-! ## Tokens -/

section Tokens

variable {g g' : Growth Unit} {index : Nat} {token : Token}

/-- A token keeps the line, if the element of a start tag comes below the insertion point. -/
theorem Handled.line (h : Handled index g token g') (hstanding : Standing g.stack g.tree)
    (hl' : g'.tree.Linked) (hline : Line g.stack g.tree)
    (hbelow : ∀ tag attributes, token = .startTag tag attributes →
      g'.tree.Above g.innermost ⟨g.tree.size⟩) : Line g'.stack g'.tree := by
  have hl := hstanding.linked
  obtain ⟨c, hc, -⟩ := hstanding.top_holds
  have hknown := Tree.lt_size_of_content? hc
  cases h with
  | text hbegins => exact hline.begins hl hl' hbegins hknown
  | @start tag attributes t own wrappers moved hbegins _ hown hwrappers _ =>
    have hancestors := (hline.begins hl hl' hbegins hknown).ancestors_below hl' (hbelow tag attributes rfl)
    rw [← innermost_eq_top, ← hwrappers] at hancestors
    subst hown
    -- a void element is not opened, only what wraps it
    split
    · exact (line_of_ancestors hl' hancestors).2
    · exact congrArg (_ :: ·) hancestors
  | passed => exact hline
  | closes _ hstack =>
    rw [hstack] at hline
    exact (hline.closed hl).2
  | unmatched => exact hline

end Tokens

/-- With a start tag an element comes below the insertion point: in its shelter under it, or, where
it is late, somewhere in the document, which is all there is to be in. -/
theorem above_started (tokens : List (Nat × Token)) (index : Nat) (tag : String)
    (attributes : List Attribute) :
    (grownFrom (tokens ++ [(index, .startTag tag attributes)])).tree.Above
      (grownFrom tokens).innermost ⟨(grownFrom tokens).tree.size⟩ := by
  have hstanding := standing_grownFrom tokens
  obtain ⟨ws, -, -, hextended, hcontent⟩ := exists_extended
    (g := { grownFrom tokens with stack := (grownFrom tokens).hosts }) hstanding.hosts
    (.ofSource tag attributes)
  have hl := hextended.grown.linked
  have hwhole := (faithful_grownFrom (tokens ++ [(index, .startTag tag attributes)])).whole
  rw [grownFrom_concat, take, tree_takeStart hstanding] at hwhole ⊢
  by_cases hlate : (grownFrom tokens).Late
  · rw [hlate.1]
    refine (hwhole.covers hl (Tree.lt_size_of_content? hcontent)).resolve_left fun heq => ?_
    have hroot := Tree.lt_size_of_content? hstanding.root
    rw [heq] at hroot
    exact Nat.lt_irrefl _ hroot
  · have hhosts : (grownFrom tokens).hosts = (grownFrom tokens).stack := by
      rw [hosts, if_neg hlate]
    have hline := (List.cons.inj hextended.line).2
    rw [← hl.mem_ancestors, innermost_eq_top, ← hhosts]
    simp only [List.cons_append, top_cons] at hline
    rw [hline]
    simp

theorem line_grownFrom (tokens : List (Nat × Token)) :
    Line (grownFrom tokens).stack (grownFrom tokens).tree := by
  induction tokens using List.reverseRecOn with
  | nil => exact line_empty
  | append_singleton tokens token ih =>
    obtain ⟨index, token⟩ := token
    refine (handled_grownFrom tokens index token).line (standing_grownFrom tokens)
      (standing_grownFrom _).linked ih ?_
    rintro tag attributes rfl
    exact above_started tokens index tag attributes

/-! ## What is open is not void -/

theorem Room.not_void {t : Tree} {os : List OpenElement} {phase : Phase} (h : Room t os phase)
    {o : OpenElement} (ho : o ∈ os) {e : Element} (he : t.element? o.id = some e) :
    isVoid e.tag = false := by
  cases phase with
  | markup => exact (h o ho).not_void he
  | raw r said =>
    obtain ⟨id, rest, rfl, hraw, -, hrest⟩ := h
    rcases List.mem_cons.mp ho with rfl | ho
    · rw [Tree.rawText?, Tree.tag?, he, Option.map_some, Option.bind_some] at hraw
      exact isVoid_of_raw hraw
    · exact (hrest o ho).not_void he

theorem exists_neat {input : String} {before : List (Nat × Token)}
    (h : before <+: (read input.toList).tokens) : ∃ phase, Neat phase (grownFrom before) := by
  obtain ⟨later, hlater⟩ := h
  obtain ⟨phase, horderly⟩ := orderly_of_read input
  rw [← hlater, List.map_append] at horderly
  obtain ⟨phase', hbefore⟩ := horderly.earlier
  exact ⟨phase', neat_start.takeAll hbefore⟩

/-! ## The stack and the tree -/

/-- What is open, the innermost first, is the way up to the document, each time another element. -/
structure Aligned (g : Growth Unit) : Prop where
  distinct : (g.stack.map (·.id)).Nodup
  line : Line g.stack g.tree
  parents : (g.stack.map (·.id) ++ [Tree.root]).IsChain fun child parent =>
    g.tree.parent? child = some parent
  outside : g.innermost = Tree.root ↔ g.stack = []
  elements : ∀ o ∈ g.stack, ∃ e, g.tree.element? o.id = some e ∧ isVoid e.tag = false

/-- The end tag closes the innermost open element of its name with all inside it, and what comes next
goes where that element stands; or no element of its name is open. -/
def Closes (tag : String) (g g' : Growth Unit) : Prop :=
  g'.tree = g.tree ∧
    match g.stack.find? (g.tree.tag? ·.id = some tag) with
    | some closed => closed :: g'.stack <:+ g.stack ∧ g.tree.parent? closed.id = some g'.innermost
    | none => g'.stack = g.stack

section Stack

variable {g g' : Growth Unit} {index : Nat} {tag : String}

theorem Line.aligned (h : Line g.stack g.tree) (hstanding : Standing g.stack g.tree)
    (hvoid : ∀ o ∈ g.stack, ∀ e, g.tree.element? o.id = some e → isVoid e.tag = false) : Aligned g := by
  have hl := hstanding.linked
  have hnodup := hl.nodup_cons_ancestors (top g.stack)
  have hchain := hl.isChain_cons_ancestors (top g.stack)
  rw [h] at hnodup hchain
  refine ⟨(List.nodup_append.mp hnodup).1, h, hchain, ?_, fun o ho => ?_⟩
  · rw [innermost_eq_top]
    cases hs : g.stack with
    | nil => exact iff_of_true rfl rfl
    | cons o rest =>
      rw [hs] at hnodup
      refine iff_of_false (fun heq => ?_) (List.cons_ne_nil o rest)
      exact (List.nodup_append.mp hnodup).2.2 o.id (by simp) Tree.root (by simp) heq
  · obtain ⟨c, hc, htext⟩ := hstanding.holds o ho
    -- it has a parent, so it is not the document
    obtain ⟨inside, rest, hs⟩ := List.append_of_mem ho
    rw [hs] at h
    have hparent := (h.closed hl).1
    cases c with
    | document => cases (hl.document_top o.id hc).symm.trans hparent
    | text s => exact absurd rfl (htext s)
    | element e =>
      have he := Tree.element?_eq_some.mpr hc
      exact ⟨e, he, hvoid o ho e he⟩

theorem Aligned.not_void (h : Aligned g) {o : OpenElement} (ho : o ∈ g.stack)
    (htag : g.tree.tag? o.id = some tag) : isVoid tag = false := by
  obtain ⟨e, he, hvoid⟩ := h.elements o ho
  rw [Tree.tag?, he, Option.map_some, Option.some.injEq] at htag
  rwa [← htag]

theorem closes_of_none (hothers : ∀ o ∈ g.stack, g.tree.tag? o.id ≠ some tag)
    (htree : g'.tree = g.tree) (hstack : g'.stack = g.stack) : Closes tag g g' := by
  have hnone : g.stack.find? (g.tree.tag? ·.id = some tag) = none :=
    List.find?_eq_none.mpr fun o ho => by simpa using hothers o ho
  rw [Closes, hnone]
  exact ⟨htree, hstack⟩

theorem Handled.closing (h : Handled index g (.endTag tag) g') (haligned : Aligned g)
    (hl : g.tree.Linked) : Closes tag g g' := by
  cases h with
  | passed hvoid =>
    refine closes_of_none (fun o ho htag => ?_) rfl rfl
    rw [haligned.not_void ho htag] at hvoid
    cases hvoid
  | @closes _ inside rest closed _ _ hstack htag hinside =>
    have hfind : g.stack.find? (g.tree.tag? ·.id = some tag) = some closed :=
      List.find?_eq_some_iff_append.mpr ⟨decide_eq_true htag, inside, rest, hstack,
        fun o ho => by simpa using hinside o ho⟩
    have hline := haligned.line
    rw [hstack] at hline
    rw [Closes, hfind]
    refine ⟨rfl, ?_, (hline.closed hl).1⟩
    rw [hstack]
    exact List.suffix_append inside (closed :: rest)
  | unmatched _ hothers => exact closes_of_none hothers rfl rfl

end Stack

theorem aligned_grownFrom {input : String} {before : List (Nat × Token)}
    (h : before <+: (read input.toList).tokens) : Aligned (grownFrom before) := by
  obtain ⟨phase, hneat⟩ := exists_neat h
  exact (line_grownFrom before).aligned hneat.standing fun _ ho _ he => hneat.room.not_void ho he

end Markup.Growth

namespace Markup

open Growth

/-- **The stack mirrors the tree.** Whether a document is read to its end or not, after each of its
tokens what is open, the innermost first, is the way from the insertion point up to the document: each
time another element, none of them void, each in the next and the last in the document, which is the
insertion point only while nothing is open. After an end tag that closes an element the insertion
point is what that element stands in. -/
theorem stack_mirrors_tree (p : Parser) (input : String) :
    let tokens := (readFrom p.reset.position 0 input.toList).tokens
    (p.parse input).2.issues = (grownFrom tokens).issues ∧
    (∀ t, (p.parse input).1 = .ok t → t = (grownFrom tokens).tree.rooted) ∧
    (∀ before, before <+: tokens → Aligned (grownFrom before)) ∧
    ∀ before index tag later, tokens = before ++ (index, .endTag tag) :: later →
      Closes tag (grownFrom before) (grownFrom (before ++ [(index, .endTag tag)])) := by
  intro tokens
  have hread : tokens = (read input.toList).tokens := rfl
  refine ⟨issues_parse p input, fun t ht => ?_, fun before hbefore => ?_, ?_⟩
  · have hparse : p.parse input = (.ok t, (p.parse input).2) := Prod.ext ht rfl
    exact (tree_of_parse hparse).1
  · exact aligned_grownFrom (hread ▸ hbefore)
  · intro before index tag later htokens
    have hbefore : before <+: (read input.toList).tokens := by
      rw [← hread, htokens]
      exact List.prefix_append before _
    exact (handled_grownFrom before index (.endTag tag)).closing (aligned_grownFrom hbefore)
      (standing_grownFrom before).linked

/-- The root is closed, and opened again with its new `BODY` for what comes behind it. -/
example : let g := grownFrom (read "<html></html><p><b>".toList).tokens
    g.stack.map (fun o => (g.tree.tag? o.id, o.announced)) =
      [(some "B", true), (some "P", true), (some "BODY", false), (some "HTML", false)] := by
  cbv

end Markup

end Hypertext
