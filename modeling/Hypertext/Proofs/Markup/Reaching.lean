/-
What a growth goes through. Whatever a token brings, the growth makes a few
kinds of moves only: the tree gains a node, an observer is told of a node,
elements are opened or closed, or an oddity is reported (`Move`). So whatever
each of these keeps, every document keeps, whether it is read to its end or
breaks off (`exists_reached`).
-/
import Mathlib.Logic.Relation
import Hypertext.Markup.Parser
import Hypertext.Proofs.Tree.Outlook

namespace Hypertext

namespace Tree

/-- A node is made, and appended somewhere or left loose. -/
inductive Gains (t : Tree) : Tree → Prop where
  | loose (content : Content) : t.Gains (t.create content).2
  | appended {content : Content} {parent : NodeId} {t' : Tree}
      (h : (t.create content).2.append parent ⟨t.size⟩ = .ok t') : t.Gains t'

variable {t t' : Tree}

/-- An append makes wrappers at most before it attaches the node. -/
theorem exists_attach_of_append {parent child : NodeId} (h : t.append parent child = .ok t') :
    ∃ u p, t.Begins u ∧ t' = u.attach p child := by
  simp only [append] at h
  split at h
  · cases h
  · split at h
    · exact ⟨t, parent, .refl t, (Except.ok.inj h).symm⟩
    · next tag _ =>
      split at h
      · cases h
      · exact ⟨_, _, begins_shelter t parent tag, (Except.ok.inj h).symm⟩

theorem Gains.size_lt (h : t.Gains t') : t.size < t'.size := by
  cases h with
  | loose content =>
    rw [size_create]
    exact Nat.lt_succ_self _
  | appended happend =>
    obtain ⟨u, p, hbegins, rfl⟩ := exists_attach_of_append happend
    have hsize := hbegins.size_le
    rw [size_create] at hsize
    rw [size_attach]
    exact hsize

theorem Gains.begins (h : t.Gains t') : t.Begins t' := by
  cases h with
  | loose content => exact begins_create t content
  | @appended content _ _ happend =>
    obtain ⟨u, p, hbegins, rfl⟩ := exists_attach_of_append happend
    have hsize := hbegins.size_le
    rw [size_create] at hsize
    exact ((begins_create t content).trans hbegins).attach p (Nat.le_refl _) hsize

theorem Linked.gains (hl : t.Linked) (h : t.Gains t') : t'.Linked := by
  cases h with
  | loose content => exact hl.create content
  | appended happend => exact (hl.create _).append happend

end Tree

namespace Markup

variable {ω : Type}

namespace Growth

/-- One move of a growth. A node is known by the time that its start or its text is told of. -/
inductive Move (observer : Observer ω) (g : Growth ω) : Growth ω → Prop where
  | gain {t : Tree} (h : g.tree.Gains t) : Move observer g { g with tree := t }
  | tell (kind : EventKind) (id : NodeId) (h : kind = .elementEnded ∨ id.index < g.tree.size) :
    Move observer g (notify observer kind id g)
  | restack (stack : List OpenElement) : Move observer g { g with stack }
  | report (index : Nat) (oddity : Oddity) : Move observer g (g.report index oddity)

/-- The second growth comes of the first. -/
abbrev Reaches (observer : Observer ω) : Growth ω → Growth ω → Prop :=
  Relation.ReflTransGen (Move observer)

section Steps

variable {observer : Observer ω}

theorem reaches_takeText (index : Nat) (s : String) (g : Growth ω) :
    Reaches observer g (g.takeText observer index s) := by
  simp only [takeText, Tree.create_fst]
  split
  · next t happend =>
    have hgain := Tree.Gains.appended happend
    exact .tail (.single (.gain hgain)) (.tell .textCreated _ (.inr hgain.size_lt))
  · exact .tail (.single (.gain (.loose _))) (.report _ _)

/-- A new node is known, whether or not it finds a place. -/
theorem reaches_place (index : Nat) (tag : String) (content : Content) (g : Growth ω) :
    let placed := place index ⟨g.tree.size⟩ tag { g with tree := (g.tree.create content).2 }
    Reaches observer g placed.1 ∧ g.tree.size < placed.1.tree.size := by
  have hloose := Tree.Gains.loose (t := g.tree) content
  simp only [place]
  split
  · next happend => exact ⟨.single (.gain (.appended happend)), (Tree.Gains.appended happend).size_lt⟩
  · split
    · exact ⟨.single (.gain hloose), hloose.size_lt⟩
    · split
      · next happend =>
        exact ⟨.tail (.single (.gain (.appended happend))) (.report _ _),
          (Tree.Gains.appended happend).size_lt⟩
      · exact ⟨.tail (.tail (.single (.gain hloose)) (.report _ _)) (.report _ _), hloose.size_lt⟩
  · exact ⟨.tail (.single (.gain hloose)) (.report _ _), hloose.size_lt⟩

theorem reaches_takeStart (index : Nat) (tag : String) (attributes : List Attribute)
    (g : Growth ω) : Reaches observer g (g.takeStart observer index tag attributes) := by
  have hplace := @reaches_place _ observer index tag
    (.element { Element.ofTag tag with attributes := .ofList attributes }) g
  obtain ⟨hplaced, hsize⟩ := hplace
  simp only [takeStart, Tree.create_fst]
  split
  · next h =>
    rw [h] at hplaced
    exact hplaced
  · next g' h =>
    rw [h] at hplaced hsize
    have hopened : Reaches observer g (openBetween ⟨g.tree.size⟩ g') := .tail hplaced (.restack _)
    have hstarted := hopened.tail (.tell .elementStarted ⟨g.tree.size⟩ (.inr hsize))
    split
    · exact hstarted.tail (.tell .elementEnded _ (.inl rfl))
    · exact hstarted.tail (.restack _)

theorem reaches_announceEnd (g : Growth ω) (o : OpenElement) :
    Reaches observer g (announceEnd observer g o) := by
  simp only [announceEnd]
  split
  · exact .single (.tell .elementEnded _ (.inl rfl))
  · exact .refl

theorem reaches_closeImplicitly (index : Nat) (g : Growth ω) (o : OpenElement) :
    Reaches observer g (closeImplicitly observer index g o) := by
  simp only [closeImplicitly]
  split
  · exact .tail (.single (.report _ _)) (.tell .elementEnded _ (.inl rfl))
  · exact .refl

theorem reaches_foldl {α : Type} {f : Growth ω → α → Growth ω}
    (hf : ∀ g a, Reaches observer g (f g a)) (l : List α) (g : Growth ω) :
    Reaches observer g (l.foldl f g) := by
  induction l generalizing g with
  | nil => exact .refl
  | cons a l ih => exact (hf g a).trans (ih _)

theorem reaches_takeEnd (index : Nat) (tag : String) (g : Growth ω) :
    Reaches observer g (g.takeEnd observer index tag) := by
  simp only [takeEnd]
  split
  · exact .refl
  · split
    · exact .single (.report _ _)
    · next rest _ =>
      have hpopped : Reaches observer g { g with stack := rest } := .single (.restack _)
      exact (hpopped.trans (reaches_foldl (reaches_closeImplicitly index) _ _)).trans
        (reaches_announceEnd _ _)

theorem reaches_take (g : Growth ω) (token : Nat × Token) :
    Reaches observer g (take observer g token) := by
  obtain ⟨index, token⟩ := token
  cases token with
  | text s => exact reaches_takeText index s g
  | startTag tag attributes => exact reaches_takeStart index tag attributes g
  | endTag tag => exact reaches_takeEnd index tag g

theorem reaches_finish (index : Nat) (g : Growth ω) :
    Reaches observer g (g.finish observer index) := by
  have hpopped : Reaches observer g { g with stack := [] } := .single (.restack _)
  have hclosed := hpopped.trans (reaches_foldl reaches_announceEnd g.stack _)
  simp only [finish]
  split
  · exact hclosed
  · split
    · next happend => exact hclosed.tail (.gain (.appended happend))
    · exact (hclosed.tail (.gain (.loose _))).tail (.report _ _)

/-- What observers keep of their memory a growth keeps. -/
theorem Reaches.memory {P : ω → Prop} {g g' : Growth ω} (h : Reaches observer g g')
    (hobserver : ∀ event t memory, P memory → P (observer event (t, memory)).2)
    (hg : P g.memory) : P g'.memory := by
  induction h with
  | refl => exact hg
  | tail _ hmove ih =>
    cases hmove with
    | gain _ => exact ih
    | tell kind id _ => exact hobserver _ _ _ ih
    | restack _ => exact ih
    | report _ _ => exact ih

/-- What is reported of a document is never taken back. -/
theorem Reaches.issues {g g' : Growth ω} (h : Reaches observer g g') : g.issues <+: g'.issues := by
  induction h with
  | refl => exact List.prefix_refl _
  | tail _ hmove ih =>
    cases hmove with
    | report _ _ => exact ih.trans (List.prefix_append _ _)
    | _ => exact ih

end Steps

end Growth

open Growth in
/-- A document's tree, and what its observer remembers, are reached from nothing. -/
theorem exists_reached (p : Parser) (observer : Observer ω) (memory : ω) (input : String) :
    let outcome := p.parseWith observer memory input
    ∃ g, Reaches observer { memory } g ∧ outcome.2.1 = g.memory ∧
      ∀ t, outcome.1 = .ok t → t = g.tree := by
  have htaken : Reaches observer { memory }
      ((readFrom p.reset.position 0 input.toList).tokens.foldl (take observer) { memory }) :=
    reaches_foldl reaches_take _ _
  simp only [Parser.parseWith]
  split
  · exact ⟨_, htaken, rfl, fun t ht => by cases ht⟩
  · exact ⟨_, htaken.trans (reaches_finish _ _), rfl, fun t ht => (Except.ok.inj ht).symm⟩

end Markup

end Hypertext
