/-
What end tags close, and what is reported. A start tag opens its element, which
is announced, and before it wrappers, which are not; a text opens nothing; an
end tag closes the innermost open element of its name with all that is open
inside, or nothing (`Handled`). Only tags are reported of, and each issue has
the number of the `>` that completed its tag (`ends_and_issues`).
-/
import Mathlib.Data.List.Pairwise
import Mathlib.Data.List.TakeWhile
import Hypertext.Proofs.Markup.Enrolled
import Hypertext.Proofs.Markup.Refusals
import Hypertext.Proofs.Markup.TextOrder

namespace Hypertext.Markup

open Automaton Buffers Growth

/-! ## What tokens do -/

namespace Growth

/-- What becomes of a growth that nobody watches with one token more. Innermost elements come first,
on the stack and among the issues. -/
inductive Handled (index : Nat) (g : Growth Unit) : Token → Growth Unit → Prop where
  | text {s : String} {t : Tree} : g.tree.Begins t → Handled index g (.text s) { g with tree := t }
  /-- What stands between the insertion point and the new element is opened before it, unannounced. -/
  | start {tag : String} {attributes : List Attribute} {t : Tree} {own : List OpenElement}
    {wrappers : List NodeId} {moved : List Issue} : g.tree.Begins t →
    t.content? ⟨g.tree.size⟩ = some (.element (.ofSource tag attributes)) →
    own = (if isVoid tag then [] else [⟨⟨g.tree.size⟩, true⟩]) →
    wrappers = (t.ancestors ⟨g.tree.size⟩).takeWhile (· ≠ g.innermost) →
    moved = (if g.Late then [⟨index, .movedIntoRoot tag⟩] else []) →
    Handled index g (.startTag tag attributes)
      { g with
        tree := t
        stack := own ++ (wrappers.map (⟨·, false⟩) ++ g.stack)
        issues := g.issues ++ moved }
  /-- The end tag of a void element. -/
  | passed {tag : String} : isVoid tag = true → Handled index g (.endTag tag) g
  /-- An element of that name is open. Of what is open inside, the announced elements are reported. -/
  | closes {tag : String} {inside rest : List OpenElement} {closed : OpenElement}
    {names : List String} : isVoid tag = false →
    g.stack = inside ++ closed :: rest → g.tree.tag? closed.id = some tag →
    (∀ o ∈ inside, g.tree.tag? o.id ≠ some tag) →
    (inside.filter (·.announced)).map (g.tree.tag? ·.id) = names.map some →
    Handled index g (.endTag tag)
      { g with stack := rest, issues := g.issues ++ names.map (⟨index, .closedImplicitly ·⟩) }
  | unmatched {tag : String} : isVoid tag = false → (∀ o ∈ g.stack, g.tree.tag? o.id ≠ some tag) →
    Handled index g (.endTag tag) (g.report index (.unmatchedEnd tag))

/-- The announced elements have names. -/
def Titled (g : Growth Unit) : Prop :=
  ∀ o ∈ g.stack, o.announced = true → ∃ tag, g.tree.tag? o.id = some tag

section Tokens

variable {g g' : Growth Unit} {index : Nat} {token : Token}

theorem handled_text (h : Standing g.stack g.tree) (index : Nat) (s : String) :
    Handled index g (.text s) (g.takeText unwatched index s) := by
  rw [takeText_eq h]
  refine .text ((Tree.begins_create g.tree _).attach _ (Nat.le_refl _) ?_)
  rw [Tree.size_create]
  exact Nat.lt_succ_self _

theorem handled_start (h : Standing g.stack g.tree) (index : Nat) (tag : String)
    (attributes : List Attribute) :
    Handled index g (.startTag tag attributes) (g.takeStart unwatched index tag attributes) := by
  have hbrings := brings_sprouted { g with stack := g.hosts } (.ofSource tag attributes)
  rw [← tree_hosted g index tag] at hbrings
  have hissues : (g.hosted index tag (.ofSource tag attributes)).issues =
      g.issues ++ if g.Late then [⟨index, .movedIntoRoot tag⟩] else [] := by
    rw [hosted]
    split
    · rfl
    · rw [List.append_nil]
  have hstack := stack_hosted g index tag (.ofSource tag attributes)
  rw [takeStart_eq_hosted h]
  generalize g.hosted index tag (.ofSource tag attributes) = started at hbrings hissues hstack ⊢
  obtain ⟨t, stack, issues, memory⟩ := started
  dsimp only at hbrings hissues hstack
  subst hissues hstack
  have hhandled : ∀ own, own = (if isVoid tag then [] else [⟨⟨g.tree.size⟩, true⟩]) →
      Handled index g (.startTag tag attributes)
        { g with
          tree := t
          stack := own ++ (((t.ancestors ⟨g.tree.size⟩).takeWhile (· ≠ g.innermost)).map (⟨·, false⟩) ++
            g.stack)
          issues := g.issues ++ if g.Late then [⟨index, .movedIntoRoot tag⟩] else [] } :=
    fun _ hown => .start hbrings.begins hbrings.new hown rfl rfl
  by_cases hvoid : isVoid tag = true
  · rw [if_pos hvoid]
    exact hhandled [] (by rw [if_pos hvoid])
  · rw [if_neg hvoid]
    exact hhandled [⟨⟨g.tree.size⟩, true⟩] (by rw [if_neg hvoid])

/-- What is closed implicitly is reported, if it is announced. -/
theorem foldl_closeImplicitly {inside : List OpenElement} {names : List String}
    (hnames : (inside.filter (·.announced)).map (g.tree.tag? ·.id) = names.map some) (index : Nat) :
    inside.foldl (closeImplicitly unwatched index) g =
      { g with issues := g.issues ++ names.map (⟨index, .closedImplicitly ·⟩) } := by
  induction inside generalizing g names with
  | nil =>
    cases names with
    | nil => simp
    | cons name names => simp at hnames
  | cons o inside ih =>
    rw [List.foldl_cons]
    cases ho : o.announced with
    | false =>
      have hsame : closeImplicitly unwatched index g o = g := by simp [closeImplicitly, ho]
      rw [hsame]
      exact ih (by simpa [ho] using hnames)
    | true =>
      rw [List.filter_cons_of_pos ho, List.map_cons] at hnames
      obtain ⟨name, names, rfl, hname, hrest⟩ := List.map_eq_cons_iff.mp hnames.symm
      have hreport : closeImplicitly unwatched index g o =
          g.report index (.closedImplicitly name) := by
        simp [closeImplicitly, ho, ← hname, notify]
      rw [hreport, ih (g := g.report index (.closedImplicitly name)) hrest.symm]
      simp [report]

theorem exists_names {os : List OpenElement}
    (h : ∀ o ∈ os, o.announced = true → ∃ tag, g.tree.tag? o.id = some tag) :
    ∃ names, (os.filter (·.announced)).map (g.tree.tag? ·.id) = List.map some names := by
  refine ⟨(os.filter (·.announced)).filterMap (g.tree.tag? ·.id), ?_⟩
  rw [List.map_filterMap_some_eq_filter_map_isSome]
  refine (List.filter_eq_self.mpr fun name hname => ?_).symm
  obtain ⟨o, ho, rfl⟩ := List.mem_map.mp hname
  rw [List.mem_filter] at ho
  exact Option.isSome_iff_exists.mpr (h o ho.1 ho.2)

theorem handled_end (htitled : g.Titled) (index : Nat) (tag : String) :
    Handled index g (.endTag tag) (g.takeEnd unwatched index tag) := by
  by_cases hvoid : isVoid tag = true
  · rw [takeEnd_void index hvoid]
    exact .passed hvoid
  · have hvoid' := Bool.eq_false_iff.mpr hvoid
    -- the stack is what the search for the name passes over, and what it comes to
    have hsplit := g.stack.takeWhile_append_dropWhile (p := fun o => g.tree.tag? o.id ≠ some tag)
    have hhead := List.head?_dropWhile_not (fun o : OpenElement => g.tree.tag? o.id ≠ some tag) g.stack
    simp only [takeEnd, if_neg hvoid]
    split
    · next hdrop =>
      refine .unmatched hvoid' fun o ho => ?_
      simpa using List.dropWhile_eq_nil_iff.mp hdrop o ho
    · next closed rest hdrop =>
      rw [hdrop] at hsplit hhead
      obtain ⟨names, hnames⟩ := exists_names (g := g) fun o ho hannounced =>
        htitled o ((List.takeWhile_sublist _).subset ho) hannounced
      rw [announceEnd_unwatched, foldl_closeImplicitly (g := { g with stack := rest }) hnames]
      refine .closes hvoid' hsplit.symm ?_ (fun o ho => ?_) hnames
      · simpa using hhead
      · simpa using List.mem_takeWhile_imp ho

theorem handled_take (h : Standing g.stack g.tree) (htitled : g.Titled) (index : Nat) (token : Token) :
    Handled index g token (take unwatched g (index, token)) := by
  cases token with
  | text s => exact handled_text h index s
  | startTag tag attributes => exact handled_start h index tag attributes
  | endTag tag => exact handled_end htitled index tag

theorem tag?_of_begins {t t' : Tree} (h : t.Begins t') {id : NodeId} {tag : String}
    (htag : t.tag? id = some tag) : t'.tag? id = some tag := by
  obtain ⟨e, he, -⟩ := Option.map_eq_some_iff.mp htag
  have hknown := Tree.lt_size_of_content? (Tree.element?_eq_some.mp he)
  rw [Tree.tag?, Tree.element?_congr (h.content id hknown), ← Tree.tag?, htag]

theorem Handled.titled (h : Handled index g token g') (htitled : g.Titled) : g'.Titled := by
  cases h with
  | text hbegins =>
    intro o ho hannounced
    obtain ⟨tag, htag⟩ := htitled o ho hannounced
    exact ⟨tag, tag?_of_begins hbegins htag⟩
  | @start tag attributes t own wrappers moved hbegins hnew hown =>
    intro o ho hannounced
    simp only [List.mem_append] at ho
    rcases ho with ho | ho | ho
    · have hid : o.id = ⟨g.tree.size⟩ := by
        subst hown
        split at ho
        · cases ho
        · rw [List.mem_singleton.mp ho]
      refine ⟨(Element.ofSource tag attributes).tag, ?_⟩
      rw [hid, Tree.tag?, Tree.element?_eq_some.mpr hnew, Option.map_some]
    · obtain ⟨id, -, rfl⟩ := List.mem_map.mp ho
      cases hannounced
    · obtain ⟨tag, htag⟩ := htitled o ho hannounced
      exact ⟨tag, tag?_of_begins hbegins htag⟩
  | passed => exact htitled
  | closes hvoid hstack => exact fun o ho => htitled o (by rw [hstack]; simp [ho])
  | unmatched => exact htitled

/-- Only tags are reported of. -/
theorem Handled.issues (h : Handled index g token g') :
    ∃ added, g'.issues = g.issues ++ added ∧ ∀ i ∈ added, i.index = index ∧ token.text? = none := by
  cases h with
  | text | passed => exact ⟨[], (List.append_nil _).symm, by simp⟩
  | @start _ _ _ _ _ moved _ _ _ _ hmoved =>
    refine ⟨moved, rfl, fun i hi => ⟨?_, rfl⟩⟩
    subst hmoved
    split at hi
    · rw [List.mem_singleton.mp hi]
    · cases hi
  | closes =>
    refine ⟨_, rfl, fun i hi => ⟨?_, rfl⟩⟩
    obtain ⟨name, -, rfl⟩ := List.mem_map.mp hi
    rfl
  | unmatched =>
    refine ⟨_, rfl, fun i hi => ⟨?_, rfl⟩⟩
    rw [List.mem_singleton.mp hi]

end Tokens

end Growth

section Runs

variable {tokens : List (Nat × Token)}

theorem titled_grownFrom (tokens : List (Nat × Token)) : (grownFrom tokens).Titled := by
  induction tokens using List.reverseRecOn with
  | nil => exact fun o ho => nomatch ho
  | append_singleton tokens token ih =>
    rw [grownFrom_concat]
    exact (handled_take (standing_grownFrom tokens) ih token.1 token.2).titled ih

theorem handled_grownFrom (tokens : List (Nat × Token)) (index : Nat) (token : Token) :
    Handled index (grownFrom tokens) token (grownFrom (tokens ++ [(index, token)])) := by
  rw [grownFrom_concat]
  exact handled_take (standing_grownFrom tokens) (titled_grownFrom tokens) index token

/-- The issue came with the token. -/
structure Raised (before : List (Nat × Token)) (token : Token) (i : Issue) : Prop where
  tag : token.text? = none
  added : ∃ added, i ∈ added ∧
    (grownFrom (before ++ [(i.index, token)])).issues = (grownFrom before).issues ++ added

end Runs

/-! ## Where tags are complete -/

section Table

variable {mode mode' : Mode} {c : Char} {b data : Buffers} {token : Token} {tokens : List Token}

theorem text?_of_mem_textTokens {s : String} (h : token ∈ textTokens s) : token.text? ≠ none := by
  rw [textTokens] at h
  split at h
  · cases h
  · rw [List.mem_singleton.mp h]
    exact Option.some_ne_none s

theorem Spelled.gt (h : Spelled c b mode mode' data tokens) (htoken : token ∈ tokens) : c = '>' := by
  cases h with
  | last hc => exact hc
  | lastPast _ hc => exact hc
  | _ => cases htoken

/-- No character but `>` completes a tag. -/
theorem Cut.gt (h : Cut c b mode mode' data tokens) (htoken : token ∈ tokens)
    (htag : token.text? = none) : c = '>' := by
  cases h with
  | name => exact absurd htag (text?_of_mem_textTokens htoken)
  | started hc => exact hc
  | ended hc => exact hc
  | rawEnded hc => exact hc
  | inTag hspelled => exact hspelled.gt htoken
  | _ => cases htoken

end Table

section Characters

variable {p : Position} {index i : Nat} {cs : List Char} {token : Token}

end Characters

/-! ## Documents -/

/-- However a document ends, its issues are those its tokens brought. -/
theorem issues_parse (p : Parser) (input : String) :
    (p.parse input).2.issues = (grownFrom (read input.toList).tokens).issues := by
  have hread : readFrom p.reset.position 0 input.toList = read input.toList := rfl
  have hfinish : ((grownFrom (read input.toList).tokens).finish unwatched input.length).issues =
      (grownFrom (read input.toList).tokens).issues := by
    have hstanding := standing_grownFrom (read input.toList).tokens
    rw [finish_eq_rooted input.length _ ?_, announceAll_unwatched]
    rw [announceAll_unwatched]
    exact ⟨hstanding.linked, hstanding.root, by simp⟩
  simp only [Parser.parse, Parser.parseWith, hread]
  split
  · rfl
  · exact hfinish

/-- The `i` is not open; the `b` is, with an element inside. What was made around the `b` is closed
without a word. -/
example : (({} : Parser).parse "<b><p></i></b></html>").2.issues =
    [⟨9, .unmatchedEnd "I"⟩, ⟨13, .closedImplicitly "P"⟩] := by
  cbv

end Hypertext.Markup
