/-
The texts of a document and the texts of its tree. None is lost and none comes
twice, and they are made in the order of the source. They also stand in that
order, as long as each goes behind those before it (`texts_in_order_iff`).

An element that begins after the root is moved into it. The texts inside then
stand before any text behind the root, which came earlier; no other way of
growing puts a text before another (`inOrder_of_unmoved`).
-/
import Hypertext.Proofs.Tree.Order
import Hypertext.Proofs.Markup.Tidy

namespace Hypertext.Markup

open Growth

/-- What grows from the tokens while nobody watches. -/
def grownFrom (tokens : List (Nat × Token)) : Growth Unit :=
  tokens.foldl (take unwatched) { memory := () }

/-- At each text among the tokens no text stands behind the place where it goes. -/
def InOrder (tokens : List (Nat × Token)) : Prop :=
  ∀ before index s after, tokens = before ++ (index, .text s) :: after →
    ∀ x ∈ (grownFrom before).tree.texts,
      ¬ (grownFrom before).tree.Behind (grownFrom before).innermost x

namespace Growth

/-! ## Elements bring no texts -/

section Elements

variable {t t' : Tree} {os : List OpenElement} {x q : NodeId} {e : Element} {g : Growth Unit}

/-- Texts are from before, and what is new hangs somewhere, but for the element to be attached. -/
structure Textless (t : Tree) (x : NodeId) (t' : Tree) : Prop where
  old : ∀ id s, t'.text? id = some s → id.index < t.size
  hung : ∀ id, t.size ≤ id.index → id.index < t'.size → id ≠ x → ∃ p, t'.parent? id = some p

theorem textless_create (t : Tree) (e : Element) : Textless t ⟨t.size⟩ (t.create (.element e)).2 where
  old id s hs := by
    rw [Tree.text?_eq_some, Tree.content?_create] at hs
    split at hs
    · cases hs
    · exact Tree.lt_size_of_content? hs
  hung id hid hlt hne := by
    rw [Tree.size_create] at hlt
    exact absurd (congrArg NodeId.mk (by omega)) hne

theorem Textless.attach (h : Textless t x t') (p : NodeId) (hx : x.index < t'.size) (id : NodeId)
    (hid : t.size ≤ id.index) (hlt : id.index < (t'.attach p x).size) :
    ∃ parent, (t'.attach p x).parent? id = some parent := by
  rw [Tree.size_attach] at hlt
  by_cases hx' : id = x
  · exact ⟨p, by rw [Tree.parent?_attach hx, if_pos hx']⟩
  · obtain ⟨q, hq⟩ := h.hung id hid hlt hx'
    exact ⟨q, by rw [Tree.parent?_attach hx, if_neg hx', hq]⟩

theorem Textless.wrapper (h : Textless t x t') (q : NodeId) (tag : String) :
    Textless t x (t'.wrapper q tag).2 where
  old id s hs := by
    rw [Tree.text?_eq_some, Tree.wrapper_eq, Tree.content?_attach, Tree.content?_create] at hs
    split at hs
    · cases hs
    · exact h.old id s (Tree.text?_eq_some.mpr hs)
  hung id hid hlt hne := by
    rw [Tree.wrapper_eq, Tree.size_attach, Tree.size_create] at hlt
    rw [Tree.wrapper_eq, Tree.parent?_attach (by rw [Tree.size_create]; exact Nat.lt_succ_self _)]
    split
    · exact ⟨q, rfl⟩
    · next hnew =>
      rw [Tree.parent?_create]
      refine h.hung id hid ?_ hne
      exact Nat.lt_of_le_of_ne (Nat.lt_succ_iff.mp hlt) fun heq => hnew (congrArg NodeId.mk heq)

/-- A new element and its shelter bring no text, and leave nothing loose. -/
theorem exists_grown (h : Standing g.stack g.tree) (hwhole : g.tree.Whole) (e : Element) :
    ∃ ids, g.tree.Grown (g.sprouted e) g.innermost ids ∧
      (∀ id s, (g.sprouted e).text? id = some s → id.index < g.tree.size) ∧
      (g.sprouted e).Whole := by
  obtain ⟨ws, -, -, hextended, -⟩ := exists_extended h e
  have htextless : Textless g.tree ⟨g.tree.size⟩
      ((g.tree.create (.element e)).2.shelter g.innermost e.tag).2 :=
    Tree.shelter_induction (P := fun _ t' => Textless g.tree ⟨g.tree.size⟩ t')
      (fun p _ tag _ h => h.wrapper p tag) e.tag (textless_create g.tree e)
  have hsize := (Tree.begins_shelter (g.tree.create (.element e)).2 g.innermost e.tag).size_le
  rw [Tree.size_create] at hsize
  refine ⟨_, hextended.grown, fun id s hs => ?_, hextended.grown.whole h.linked hwhole ?_⟩
  · rw [sprouted, Tree.text?_congr (Tree.content?_attach _ _ _ _)] at hs
    exact htextless.old id s hs
  · rw [sprouted]
    exact htextless.attach _ hsize

theorem tree_takeStart (h : Standing g.stack g.tree) (index : Nat) (tag : String)
    (attributes : List Attribute) : (g.takeStart unwatched index tag attributes).tree =
      { g with stack := g.hosts }.sprouted (.ofSource tag attributes) := by
  rw [takeStart_eq_hosted h]
  dsimp only
  split <;> rfl

end Elements

end Growth

/-! ## Runs -/

section Runs

variable {tokens : List (Nat × Token)} {token : Nat × Token} {index : Nat} {s : String}

theorem grownFrom_concat (tokens : List (Nat × Token)) (token : Nat × Token) :
    grownFrom (tokens ++ [token]) = take unwatched (grownFrom tokens) token := by
  simp [grownFrom]

theorem InOrder.nil : InOrder [] := by
  intro before index s after heq
  simp at heq

/-- One more token matters only where it is a text. -/
theorem inOrder_concat : InOrder (tokens ++ [token]) ↔ InOrder tokens ∧
    ∀ s, token.2 = .text s → ∀ x ∈ (grownFrom tokens).tree.texts,
      ¬ (grownFrom tokens).tree.Behind (grownFrom tokens).innermost x := by
  constructor
  · intro h
    refine ⟨fun before index s after heq => h before index s (after ++ [token]) (by simp [heq]), ?_⟩
    intro s hs
    exact h tokens token.1 s [] (by rw [← hs])
  · rintro ⟨h, hlast⟩ before index s after heq
    rcases place_of_split heq with ⟨more, htokens, -⟩ | ⟨rfl, htoken, -⟩ | hnone
    · exact h before index s more htokens
    · exact hlast s (by rw [← htoken])
    · cases hnone

/-- What was grown while all was written down, without what was written. -/
theorem mapMemory_recorded (tokens : List (Nat × Token)) :
    (tokens.foldl (take unwatched.recorded) { memory := ((), []) }).mapMemory Prod.fst =
      grownFrom tokens :=
  mapMemory_foldl _ (mapMemory_take unwatched.mirrors_recorded) tokens

theorem standing_grownFrom (tokens : List (Nat × Token)) :
    Standing (grownFrom tokens).stack (grownFrom tokens).tree := by
  have hsound := Sound.takeAll (g := { memory := ((), []) }) lawful_unwatched (sound_start ()) tokens
  rw [← mapMemory_recorded]
  exact hsound.standing

/-- The texts of the tree are those of the tokens, made in their order. They stand in that order just
where each came behind the others. -/
structure Faithful (tokens : List (Nat × Token)) (t : Tree) : Prop where
  whole : t.Whole
  made : t.madeTexts.filterMap t.text? = tokens.filterMap (·.2.text?)
  order : t.texts = t.madeTexts ↔ InOrder tokens

theorem faithful_nil : Faithful [] .empty where
  whole id hid hne := absurd (congrArg NodeId.mk (Nat.lt_one_iff.mp hid)) hne
  made := rfl
  order := iff_of_true (by decide) .nil

/-- A tree that has grown without texts is as faithful as before. -/
theorem Faithful.grown {t t' : Tree} {p : NodeId} {ids : List NodeId} (h : Faithful tokens t)
    (hl : t.Linked) (hroot : Tree.root.index < t.size) (hp : p.index < t.size)
    (hgrown : t.Grown t' p ids) (hold : ∀ id s, t'.text? id = some s → id.index < t.size)
    (hwhole : t'.Whole) : Faithful tokens t' where
  whole := hwhole
  made := by
    rw [hgrown.madeTexts_eq hold, hgrown.filterMap_madeTexts, h.made]
  order := by
    rw [hgrown.madeTexts_eq hold, hgrown.texts_eq hl h.whole hroot hp hold, h.order]

/-- A text is put to the others. -/
theorem Faithful.text (h : Faithful tokens (grownFrom tokens).tree) (index : Nat) (s : String) :
    Faithful (tokens ++ [(index, .text s)]) (grownFrom (tokens ++ [(index, .text s)])).tree := by
  have hstanding := standing_grownFrom tokens
  have hl := hstanding.linked
  have hroot := Tree.lt_size_of_content? hstanding.root
  obtain ⟨c, hc, htext⟩ := hstanding.top_holds
  rw [← innermost_eq_top] at hc
  have hp := Tree.lt_size_of_content? hc
  obtain ⟨hgrown, hcontent, hleaf, hparent, hsize⟩ := hl.grown_attach (.text s) (by simp) hc htext
  have hnew := Tree.text?_eq_some.mpr hcontent
  have hmade := hgrown.madeTexts_of_text hsize hnew
  have horder := hgrown.texts_eq_madeTexts_iff hl (h.whole.covers hl hp) hroot hp hleaf hsize hnew
  have htree : (grownFrom (tokens ++ [(index, .text s)])).tree =
      ((grownFrom tokens).tree.create (.text s)).2.attach (grownFrom tokens).innermost
        ⟨(grownFrom tokens).tree.size⟩ := by
    rw [grownFrom_concat, take, takeText_eq hstanding]
    rfl
  rw [htree]
  generalize ((grownFrom tokens).tree.create (.text s)).2.attach (grownFrom tokens).innermost
    ⟨(grownFrom tokens).tree.size⟩ = t' at *
  refine ⟨hgrown.whole hl h.whole ?_, ?_, ?_⟩
  · intro id hid hlt
    rw [hsize] at hlt
    have hid' : id = ⟨(grownFrom tokens).tree.size⟩ := congrArg NodeId.mk (by omega)
    exact ⟨_, hid' ▸ hparent⟩
  · rw [hmade, List.filterMap_append, List.filterMap_append, hgrown.filterMap_madeTexts, h.made,
      List.filterMap_cons_some hnew]
    rfl
  · rw [horder, inOrder_concat, h.order]
    exact and_congr_right fun _ => ⟨fun hlast _ _ => hlast, fun hlast => hlast s rfl⟩

/-- An element is put to the others. -/
theorem Faithful.startTag (h : Faithful tokens (grownFrom tokens).tree) (index : Nat) (tag : String)
    (attributes : List Attribute) :
    Faithful tokens (take unwatched (grownFrom tokens) (index, .startTag tag attributes)).tree := by
  have hstanding := standing_grownFrom tokens
  have hhosts := hstanding.hosts
  obtain ⟨c, hc, -⟩ := hhosts.top_holds
  obtain ⟨ids, hgrown, hold, hwhole⟩ := exists_grown
    (g := { grownFrom tokens with stack := (grownFrom tokens).hosts }) hhosts h.whole
    (.ofSource tag attributes)
  rw [take, tree_takeStart hstanding]
  exact h.grown hhosts.linked (Tree.lt_size_of_content? hhosts.root) (Tree.lt_size_of_content? hc)
    hgrown hold hwhole

theorem Faithful.concat (h : Faithful tokens (grownFrom tokens).tree) (token : Nat × Token) :
    Faithful (tokens ++ [token]) (grownFrom (tokens ++ [token])).tree := by
  obtain ⟨index, token⟩ := token
  -- a tag is no text
  have htag : ∀ {t : Tree}, (∀ s, token ≠ .text s) → Faithful tokens t →
      Faithful (tokens ++ [(index, token)]) t := by
    intro t hno h
    refine ⟨h.whole, ?_, ?_⟩
    · have hnone : Token.text? token = none := by
        cases token with
        | text s => exact absurd rfl (hno s)
        | startTag | endTag => rfl
      rw [h.made, List.filterMap_append]
      simp [hnone]
    · rw [h.order, inOrder_concat]
      exact (and_iff_left fun s hs => absurd hs (hno s)).symm
  cases token with
  | text s => exact h.text index s
  | startTag tag attributes =>
    rw [grownFrom_concat]
    exact htag (by simp) (h.startTag index tag attributes)
  | endTag tag =>
    obtain ⟨stack, issues, hend, -⟩ := takeEnd_unwatched index tag (grownFrom tokens)
    rw [grownFrom_concat, take, hend]
    exact htag (by simp) h

theorem faithful_grownFrom (tokens : List (Nat × Token)) : Faithful tokens (grownFrom tokens).tree := by
  induction tokens using List.reverseRecOn with
  | nil => exact faithful_nil
  | append_singleton tokens token ih => exact ih.concat token

theorem Faithful.rooted {t : Tree} (h : Faithful tokens t) (hl : t.Linked)
    (hroot : t.content? Tree.root = some .document) : Faithful tokens t.rooted := by
  rw [Tree.rooted]
  split
  · exact h
  · obtain ⟨hgrown, -, -, -, -⟩ :=
      hl.grown_attach (.element (.ofTag "HTML")) (by simp) hroot (by simp)
    have hknown := Tree.lt_size_of_content? hroot
    have htextless := textless_create t (.ofTag "HTML")
    rw [Tree.wrapper_eq]
    refine h.grown hl hknown hknown hgrown (fun id s hs => ?_) (hgrown.whole hl h.whole ?_)
    · rw [Tree.text?_congr (Tree.content?_attach _ _ _ _)] at hs
      exact htextless.old id s hs
    · exact htextless.attach _ (by simp)

/-! ## Tours -/

/-- What a tour under way has still to come to is in the innermost element: nothing is behind it. -/
theorem Underway.exists_walk {t : Tree} {S : NodeId → Prop} {os : List OpenElement}
    {ids : List NodeId} {log : List Event} (h : Underway t S os ids log) (hl : t.Linked) :
    ∃ before, t.walk Tree.root = before ++ t.walk (top os) := by
  induction h with
  | outside => exact ⟨[], rfl⟩
  | @inside os done log o ids more _ hlast _ _ _ ih =>
    obtain ⟨before, hwalk⟩ := ih
    have hmem : o.id ∈ t.children (top os) := by simp [hlast]
    refine ⟨before ++ top os :: done.flatMap t.walk, ?_⟩
    rw [hwalk, hl.walk_eq (Tree.lt_size_of_mem_children hmem), hlast, List.flatMap_append,
      List.flatMap_singleton, top_cons]
    simp

/-- Where nothing is moved, nothing stands behind the place where a text goes. -/
theorem inOrder_of_unmoved
    (hunmoved : Unmoved (tokens.foldl (take unwatched.recorded) { memory := ((), []) }).issues) :
    InOrder tokens := by
  intro before index s after heq x _ hbehind
  rw [heq, List.foldl_append] at hunmoved
  have htouring := touring_empty.takeAll (g := { memory := ((), []) }) (sound_start ()) before
    (hunmoved.of_prefix (issues_takeAll _ _))
  have hstanding := standing_grownFrom before
  rw [← mapMemory_recorded] at hstanding hbehind
  obtain ⟨earlier, hwalk⟩ := (htouring.underway _ fun _ _ => Iff.rfl).exists_walk hstanding.linked
  obtain ⟨c, hc, -⟩ := hstanding.top_holds
  rw [← List.append_nil (earlier ++ _)] at hwalk
  have hnone := (hstanding.linked.behind_iff (Tree.lt_size_of_content? hstanding.root)
    (Tree.lt_size_of_content? hc) hwalk).mp hbehind
  cases hnone

end Runs

/-- The tree of a document is what grows from its tokens, with a root. -/
theorem tree_of_parse {p p' : Parser} {input : String} {t : Tree}
    (hparse : p.parse input = (.ok t, p')) :
    t = (grownFrom (read input.toList).tokens).tree.rooted ∧
      tokensOf input = .ok ((read input.toList).tokens.map (·.2)) := by
  obtain ⟨hfailure, htree, -⟩ := parseWith_eq_ok (parse_eq_ok hparse)
  refine ⟨?_, by simp only [tokensOf, hfailure]⟩
  rw [← finish_unwatched (standing_grownFrom _) input.length]
  exact htree.symm

theorem faithful_of_parse {p p' : Parser} {input : String} {t : Tree}
    (hparse : p.parse input = (.ok t, p')) : Faithful (read input.toList).tokens t := by
  have hstanding := standing_grownFrom (read input.toList).tokens
  rw [(tree_of_parse hparse).1]
  exact (faithful_grownFrom _).rooted hstanding.linked hstanding.root

/-- **The texts of a document are those of its tree**, each once, and made in their order. They stand
in that order just where each came behind the others, and so they do unless an element is moved. -/
theorem texts_in_order_iff {p p' : Parser} {input : String} {t : Tree}
    (hparse : p.parse input = (.ok t, p')) :
    ∃ tokens, tokensOf input = .ok tokens ∧ t.texts.Perm t.madeTexts ∧
      t.madeTexts.filterMap t.text? = tokens.filterMap Token.text? ∧
      (t.texts = t.madeTexts ↔ InOrder (read input.toList).tokens) ∧
      (InOrder (read input.toList).tokens →
        t.textContent Tree.root = String.join (tokens.filterMap Token.text?)) ∧
      (Unmoved p'.issues → InOrder (read input.toList).tokens) := by
  obtain ⟨-, htokens⟩ := tree_of_parse hparse
  obtain ⟨htidy, hhoused, -⟩ := tidy_of_parse hparse
  have hroot := Tree.lt_size_of_content? hhoused.document
  have hfaithful := faithful_of_parse hparse
  have hmade : t.madeTexts.filterMap t.text? =
      ((read input.toList).tokens.map (·.2)).filterMap Token.text? := by
    rw [hfaithful.made, List.filterMap_map]
    rfl
  refine ⟨_, htokens, hfaithful.whole.texts_perm htidy.linked hroot, hmade, hfaithful.order,
    fun hordered => ?_, fun hunmoved => ?_⟩
  · rw [htidy.linked.textContent_root hroot, hfaithful.order.mpr hordered, hmade]
  · obtain ⟨-, -, -, hparser⟩ := parseWith_eq_ok (recorded_of_parse hparse)
    rw [hparser] at hunmoved
    exact inOrder_of_unmoved (hunmoved.of_prefix (issues_finish _ _))

/-- What is moved into a root that ends with its texts leaves them in order. -/
theorem texts_in_order_moved : ∃ t p', ({} : Parser).parse "<p>a</html><p>b" = (.ok t, p') ∧
    InOrder (read "<p>a</html><p>b".toList).tokens ∧ t.textContent Tree.root = "ab" := by
  have hread : (read "<p>a</html><p>b".toList).tokens = [(2, .startTag "P" []), (10, .text "a"),
      (10, .endTag "HTML"), (13, .startTag "P" []), (15, .text "b")] := by
    decide +kernel
  have hfound : (({} : Parser).parse "<p>a</html><p>b").1.toOption.map (fun _ => ()) = some () := by
    decide +kernel
  obtain ⟨t, p', hparse, -⟩ := exists_tree hfound
  obtain ⟨htree, htokens⟩ := tree_of_parse hparse
  have hsame : t.texts = t.madeTexts := by
    rw [htree, hread]
    decide +kernel
  obtain ⟨tokens, htokens', -, -, hiff, hcontent, -⟩ := texts_in_order_iff hparse
  have hordered := hiff.mp hsame
  refine ⟨t, p', hparse, hordered, ?_⟩
  rw [htokens, Except.ok.injEq] at htokens'
  rw [hcontent hordered, ← htokens', hread]
  decide +kernel

/-- What is moved into a root goes before the text behind the root. -/
theorem texts_out_of_order : ¬ ∀ input t p' tokens, ({} : Parser).parse input = (.ok t, p') →
    tokensOf input = .ok tokens →
    t.textContent Tree.root = String.join (tokens.filterMap Token.text?) := by
  intro h
  have hread : (read "<p>a</html>b<p>c".toList).tokens = [(2, .startTag "P" []), (10, .text "a"),
      (10, .endTag "HTML"), (13, .text "b"), (14, .startTag "P" []), (16, .text "c")] := by
    decide +kernel
  have hfound : (({} : Parser).parse "<p>a</html>b<p>c").1.toOption.map (fun _ => ()) = some () := by
    decide +kernel
  obtain ⟨t, p', hparse, -⟩ := exists_tree hfound
  obtain ⟨htree, htokens⟩ := tree_of_parse hparse
  have hsame := h _ t p' _ hparse htokens
  rw [htree, hread] at hsame
  exact absurd hsame (by decide +kernel)

end Hypertext.Markup
