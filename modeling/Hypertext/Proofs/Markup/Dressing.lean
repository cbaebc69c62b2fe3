/-
Attributes that are edited while a document grows could as well be edited
afterwards. An observer dresses a document where all it does to the tree is to
edit the attributes of the node it is told of, and where what it does depends on
nothing but the outlook from there. The tree that it leaves is then the tree of
the document once all its events have been played to the observer
(`parseWith_eq_dressed`).

Growth does not look at attributes, so elements are moved into the root as they
would be with nobody watching: this is so for every document.
-/
import Hypertext.Proofs.Markup.Enrolled
import Hypertext.Proofs.Markup.Replay

namespace Hypertext.Markup

open Growth

variable {ω : Type}

/-- With such a memory, the observer does nothing but edit the attributes of the node it is told of,
and makes the same edit where the outlook from there is the same. -/
def Observer.Dresses (o : Observer ω) (Fine : ω → Prop) : Prop :=
  ∀ event t t' m, Fine m → t.SameOutlook t' event.node →
    ∃ f m', Fine m' ∧ o event (t, m) = (t.modifyAttributes event.node f, m') ∧
      o event (t', m) = (t'.modifyAttributes event.node f, m')

/-- The tree `t'` is `t` with other attributes. So does the observer leave any tree that begins like
`t` when told of the log, with the same memory `m`; what it has not been told of it leaves alone. -/
structure Dressed (o : Observer ω) (Fine : ω → Prop) (memory : ω) (t : Tree) (log : List Notice)
    (t' : Tree) (m : ω) : Prop where
  fine : Fine m
  shape : t'.stripped = t.stripped
  replayed : ∀ T : Tree, T.Linked → t.Begins T →
    ∃ u, replay o log (T, memory) = (u, m) ∧ u.stripped = T.stripped ∧
      ∀ id, u.content? id = if id.index < t.size then t'.content? id else T.content? id

section Dressed

variable {o : Observer ω} {Fine : ω → Prop} {memory m : ω} {t t' t₁ t₁' : Tree} {log : List Notice}
  {id : NodeId} {content : Content}

theorem dressed_empty (hm : Fine memory) : Dressed o Fine memory .empty [] .empty memory where
  fine := hm
  shape := rfl
  replayed T _ hbegins := by
    refine ⟨T, rfl, rfl, fun id => ?_⟩
    split
    · next hid => exact hbegins.content id hid
    · rfl

/-- Both trees gain the same nodes. -/
theorem Dressed.grow (h : Dressed o Fine memory t log t' m) (hbrings : t.Brings content t₁)
    (hbrings' : t'.Brings content t₁') (hshape : t₁'.stripped = t₁.stripped) :
    Dressed o Fine memory t₁ log t₁' m where
  fine := h.fine
  shape := hshape
  replayed T hT hbegins := by
    obtain ⟨u, hreplay, hstripped, hcontent⟩ := h.replayed T hT (hbrings.begins.trans hbegins)
    have hsize := Tree.size_of_stripped h.shape
    refine ⟨u, hreplay, hstripped, fun id => ?_⟩
    rw [hcontent]
    by_cases hold : id.index < t.size
    · rw [if_pos hold, if_pos (Nat.lt_of_lt_of_le hold hbrings.begins.size_le),
        hbrings'.begins.content id (by omega)]
    · rw [if_neg hold]
      split
      · next hnew =>
        rw [hbegins.content id hnew]
        exact (hbrings.content_eq hbrings' hsize hshape (Nat.le_of_not_lt hold)).symm
      · rfl

/-- The observer is told of a node. -/
theorem Dressed.event (hdresses : o.Dresses Fine) (h : Dressed o Fine memory t log t' m)
    (hl : t.Linked) (hid : id.index < t.size) (kind : EventKind) (content : Option Content) :
    Dressed o Fine memory t (log ++ [⟨⟨kind, id⟩, content⟩]) (o ⟨kind, id⟩ (t', m)).1
      (o ⟨kind, id⟩ (t', m)).2 := by
  obtain ⟨f, m', hm', hact, -⟩ := hdresses ⟨kind, id⟩ t' t' m h.fine ⟨rfl, fun _ _ => rfl⟩
  refine ⟨by rw [hact]; exact hm', by rw [hact, Tree.stripped_modifyAttributes, h.shape], ?_⟩
  intro T hT hbegins
  obtain ⟨u, hreplay, hstripped, hcontent⟩ := h.replayed T hT hbegins
  have hsize := Tree.size_of_stripped h.shape
  have hbegins' : t'.Begins u := by
    refine ⟨?_, fun x hx => ?_, fun x hx => ?_⟩
    · rw [hsize, Tree.size_of_stripped hstripped]
      exact hbegins.size_le
    · rw [hcontent, if_pos (hsize ▸ hx)]
    · rw [Tree.parent?_of_stripped hstripped, hbegins.parent x (hsize ▸ hx),
        Tree.parent?_of_stripped h.shape]
  have houtlook := hbegins'.sameOutlook (hl.of_stripped h.shape) (hT.of_stripped hstripped)
    (hsize.symm ▸ hid)
  obtain ⟨f', m'', -, hact', hact''⟩ := hdresses ⟨kind, id⟩ t' u m h.fine houtlook
  refine ⟨u.modifyAttributes id f', ?_, ?_, fun x => ?_⟩
  · rw [replay_concat, hreplay, hact', hact'']
  · rw [Tree.stripped_modifyAttributes, hstripped]
  · rw [hact', Tree.content?_modifyAttributes, Tree.content?_modifyAttributes, hcontent]
    by_cases hx : x = id
    · rw [if_pos hx, if_pos hx, hx, if_pos hid, if_pos hid]
    · rw [if_neg hx, if_neg hx]

end Dressed

section Growing

variable {o : Observer ω} {Fine : ω → Prop} {memory m : ω} {t t' : Tree} {log : List Notice}
  {os : List OpenElement}

theorem Dressed.text (h : Dressed o Fine memory t log t' m) (s : String) :
    Dressed o Fine memory ((t.create (.text s)).2.attach (top os) ⟨t.size⟩) log
      ((t'.create (.text s)).2.attach (top os) ⟨t.size⟩) m := by
  have hbrings := (Tree.brings_create t (.text s)).attach (top os)
  have hbrings' := (Tree.brings_create t' (.text s)).attach (top os)
  rw [Tree.size_of_stripped h.shape] at hbrings'
  refine h.grow hbrings hbrings' ?_
  rw [Tree.stripped_attach, Tree.stripped_create, h.shape, ← Tree.stripped_create,
    ← Tree.stripped_attach]

theorem stripped_sprouted_congr {α β : Type} {g : Growth α} {g' : Growth β}
    (hshape : g'.tree.stripped = g.tree.stripped) (hstack : g'.stack = g.stack) (e : Element) :
    (g'.sprouted e).stripped = (g.sprouted e).stripped := by
  rw [stripped_sprouted, stripped_sprouted]
  simp only [sprouted, innermost_eq_top, stripped, hshape, hstack]

theorem lockstep_dressed (hdresses : o.Dresses Fine) (memory : ω) :
    Lockstep o (Dressed o Fine memory) where
  thinned {t log t' m} h := ⟨[], by simp, by rw [h.shape]; exact .refl _⟩
  tell {t log t' m} kind id h hl hid := h.event hdresses hl hid kind _
  text s h _ := h.text s
  element {g g'} e h hstack _ :=
    h.grow (brings_sprouted g e) (brings_sprouted g' e) (stripped_sprouted_congr h.shape hstack e)

/-- The root that both trees are given where they have none. -/
theorem Dressed.rooted (h : Dressed o Fine memory t log t' m) :
    Dressed o Fine memory t.rooted log t'.rooted m := by
  have hsame := Tree.documentElement?_of_stripped h.shape
  rw [Tree.rooted, Tree.rooted, hsame]
  split
  · exact h
  · have hbrings := (Tree.brings_create t (.element (.ofTag "HTML"))).attach Tree.root
    have hbrings' := (Tree.brings_create t' (.element (.ofTag "HTML"))).attach Tree.root
    have hwrapped : ∀ t : Tree, (t.wrapper Tree.root "HTML").2.stripped =
        (t.stripped.wrapper Tree.root "HTML").2 := fun t => by rw [Tree.stripped_wrapper]
    refine h.grow hbrings hbrings' ?_
    rw [hwrapped, hwrapped, h.shape]

end Growing

/-- **Attributes edited afterwards.** The tree that an observer leaves which only edits attributes is
the tree of the document after a replay of its events. -/
theorem parseWith_eq_dressed {o : Observer ω} {Fine : ω → Prop} (hdresses : o.Dresses Fine)
    {memory : ω} (hm : Fine memory) {p p' : Parser} {input : String} {t : Tree}
    (hparse : p.parse input = (.ok t, p')) :
    ∃ u m, replay o (sourceLog input) (t, memory) = (u, m) ∧ Fine m ∧
      p.parseWith o memory input = (.ok u, m, p') := by
  obtain ⟨u, u', m, hstanding, hdressed, rfl, hwatched⟩ :=
    (lockstep_dressed hdresses memory).parse_of_moves (dressed_empty hm) (recorded_of_parse hparse)
      (.inr fun _ _ _ _ h => h.shape)
  have hrooted := hdressed.rooted
  obtain ⟨v, hreplay, hshape, hcontent⟩ := hrooted.replayed u.rooted hstanding.rooted.linked (.refl _)
  have hsame : u'.rooted = v := by
    refine Tree.eq_of_stripped (hrooted.shape.trans hshape.symm) fun id => ?_
    rw [hcontent]
    split
    · rfl
    · next hid =>
      have hsize := Tree.size_of_stripped hrooted.shape
      rw [Tree.content?, Tree.content?, Tree.node?_eq_none.mpr (Nat.le_of_not_lt hid),
        Tree.node?_eq_none.mpr (by omega)]
  exact ⟨v, m, hreplay, hrooted.fine, by rw [hwatched, hsame]⟩

end Hypertext.Markup
