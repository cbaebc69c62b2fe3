/-
Documents as pieces: texts, start tags and end tags, one after the other. The
tokens of a document are those of its pieces, read from left to right, so no
character outside a tag is lost or told twice, on whichever way the tokenizer
came to see that it was no tag (`tokens_of_pieces`).

After each character the document so far is some pieces and what has been read
since the last of them (`Midst`): a text with all that is still held of it, a
raw text, or a start tag under way.
-/
import Hypertext.Proofs.Markup.Cutting

namespace Hypertext.Markup

open Automaton Buffers

/-! ## Pieces -/

/-- A stretch of a document. A start tag is told by its name, the characters behind it, and the
attributes they spell. -/
inductive Piece where
  | text (s : List Char)
  | startTag (name rest : List Char) (attributes : List Attribute)
  | endTag (name : List Char)
  deriving DecidableEq, Repr

namespace Piece

/-- The characters of a piece. -/
def chars : Piece → List Char
  | .text s => s
  | .startTag name rest _ => '<' :: name ++ rest ++ ['>']
  | .endTag name => '<' :: '/' :: name ++ ['>']

/-- The tokens of a piece. A void element ends where it starts; an end tag without a name is no
token. -/
def tokens : Piece → List Token
  | .text s => [.text (.ofList s)]
  | .startTag name _ attributes => startTokens (.ofList name) attributes
  | .endTag name => if name = [] then [] else [.endTag (String.ofList name).toUpper]

def isText : Piece → Bool
  | .text _ => true
  | _ => false

/-- The raw text element that begins with the piece. -/
def rawText? : Piece → Option RawText
  | .startTag name _ _ => RawText.ofTag? (.ofList name)
  | _ => none

/-- What a piece is on its own: a text is not empty; the name of a tag is of letters and digits;
that of a start tag is not empty and as long as can be, and the tag alone is read as its tokens. -/
inductive Proper : Piece → Prop where
  | text {s} : s ≠ [] → Proper (.text s)
  | startTag {name rest attributes} : name ≠ [] → (∀ c ∈ name, c.isAlphanum = true) →
    (∀ c, rest.head? = some c → c.isAlphanum = false) →
    tokensOf (.ofList (startTag name rest attributes).chars) =
      .ok (startTag name rest attributes).tokens →
    Proper (.startTag name rest attributes)
  | endTag {name} : (∀ c ∈ name, c.isAlphanum = true) → Proper (.endTag name)

end Piece

/-- What follows the start tag of a raw text element: at most one text, and then the element's own
end tag, in whatever letter case. -/
def RawText.Closed (e : RawText) (after : List Piece) : Prop :=
  ∃ texts name more, texts.length ≤ 1 ∧ (∀ p ∈ texts, p.isText = true) ∧
    (String.ofList name).toLower = e.name ∧ after = texts ++ .endTag name :: more

/-- What follows it where the document ends inside the element: at most one text. -/
def RawText.Cut (after : List Piece) (tail : List Char) : Prop :=
  after.length ≤ 1 ∧ (∀ p ∈ after, p.isText = true) ∧ tail = []

/-- A start tag that does not end: it begins as one, and alone it is no token. -/
def Unterminated (tail : List Char) : Prop :=
  ∃ c rest, tail = '<' :: c :: rest ∧ c.isAlphanum = true ∧ tokensOf (.ofList tail) = .ok []

/-! ## Steps inside a start tag -/

section Steps

variable {p q : Position} {c : Char} {cs name : List Char} {tokens : List Token} {b : Buffers}

theorem Reads.unique {q' : Position} {tokens' : List Token} (h : Reads p cs tokens q)
    (h' : Reads p cs tokens' q') : tokens = tokens' ∧ q = q' := by
  have heq := h.symm.trans h'
  simp only [Step.mk.injEq] at heq
  exact ⟨heq.2.1, heq.1⟩

/-- A character that is not refused is taken by a transition of the mode. -/
theorem Reads.exists_transition (h : Reads p [c] tokens q) :
    ∃ rules transition, p.state.rules = some rules ∧ rules.select c = some transition ∧
      q = ⟨(transition.action c p.data).target.getD transition.target,
        (transition.action c p.data).data⟩ ∧
      tokens = (transition.action c p.data).events := by
  obtain ⟨q', first, later, hstep, hnil, rfl⟩ := h.uncons
  obtain ⟨rfl, rfl⟩ := hnil.eq_of_nil
  rw [Machine.step] at hstep
  split at hstep
  · simp at hstep
  · next rules hrules =>
    split at hstep
    · simp at hstep
    · next transition hselect =>
      dsimp only at hstep
      split at hstep
      · simp at hstep
      · simp only [Step.mk.injEq, and_true] at hstep
        exact ⟨rules, transition, hrules, hselect, hstep.1.symm, by rw [List.append_nil, hstep.2]⟩

/-- A transition is selected by a row that accepts the character, or because no row does. -/
theorem cases_of_select {rules : ModeRules} {transition : Transition Char Mode Buffers Token}
    (h : rules.select c = some transition) :
    (∃ row ∈ rules.rows, row.2 = transition ∧ row.1.accepts c = true) ∨
      rules.otherwise = some transition ∧ ∀ row ∈ rules.rows, row.1.accepts c = false := by
  rw [Rules.select] at h
  split at h
  · next pattern _ hfind =>
    cases h
    have haccepts := List.find?_some hfind
    exact .inl ⟨_, List.mem_of_find?_eq_some hfind, rfl, haccepts⟩
  · next hfind =>
    exact .inr ⟨h, fun row hrow => Bool.eq_false_iff.mpr (List.find?_eq_none.mp hfind row hrow)⟩

theorem mem_of_select {rules : ModeRules} {transition : Transition Char Mode Buffers Token}
    (h : rules.select c = some transition) :
    (∃ row ∈ rules.rows, row.2 = transition ∧ row.1.accepts c = true) ∨
      rules.otherwise = some transition :=
  (cases_of_select h).imp_right And.left

/-- The modes in which a start tag's attributes are read. -/
def attributeModes : List Mode :=
  [.betweenAttributes, .attributeName, .afterName, .beforeValue, .value]

/-- What a character does among the attributes of a start tag: the modes before it and after it, the
buffers after it, and its tokens. But between attributes, one is under way. -/
inductive Spelled (c : Char) (b : Buffers) : Mode → Mode → Buffers → List Token → Prop where
  | between : Spelled c b .betweenAttributes .betweenAttributes b []
  | first : c.isAlphanum = true →
    Spelled c b .betweenAttributes .attributeName (addName c b).data []
  | again : c.isAlphanum = true →
    Spelled c b .afterName .attributeName (addName c b.endAttribute).data []
  | more : isNameChar c = true → Spelled c b .attributeName .attributeName (addName c b).data []
  | along {mode mode' value quote} : mode ≠ .betweenAttributes → mode' ≠ .betweenAttributes →
    mode' ∈ attributeModes → Spelled c b mode mode' { b with value, quote } []
  | past {mode} : mode ≠ .betweenAttributes →
    Spelled c b mode .betweenAttributes b.endAttribute []
  | last : c = '>' → Spelled c b .betweenAttributes (modeAfter b.tag) {}
    (startTokens b.tag b.attributes)
  | lastPast {mode} : mode ≠ .betweenAttributes → c = '>' → Spelled c b mode (modeAfter b.tag) {}
    (startTokens b.tag b.endAttribute.attributes)

/-- All that can happen in the modes of attributes. -/
theorem spelled_of_select {mode : Mode} (hmode : mode ∈ attributeModes) {rules : ModeRules}
    {transition : Transition Char Mode Buffers Token} (hrules : mode.rules = some rules)
    (hselect : rules.select c = some transition) :
    let o := transition.action c b
    Spelled c b mode (o.target.getD transition.target) o.data o.events := by
  simp only [attributeModes, List.mem_cons, List.not_mem_nil, or_false] at hmode
  rcases hmode with rfl | rfl | rfl | rfl | rfl <;> cases hrules <;>
    rcases mem_of_select hselect with ⟨row, hrow, rfl, haccepts⟩ | hother
  · simp only [betweenAttributesRules, List.mem_cons, List.not_mem_nil, or_false] at hrow
    rcases hrow with rfl | rfl | rfl | rfl
    · exact .first haccepts
    · exact .between
    · exact .between
    · exact .last (of_decide_eq_true haccepts).symm
  · cases hother
  · simp only [attributeNameRules, List.mem_cons, List.not_mem_nil, or_false] at hrow
    rcases hrow with rfl | rfl | rfl | rfl | rfl
    · exact .more haccepts
    · exact .along (by simp) (by simp) (by simp [attributeModes])
    · exact .along (by simp) (by simp) (by simp [attributeModes])
    · exact .past (by simp)
    · exact .lastPast (by simp) (of_decide_eq_true haccepts).symm
  · cases hother
  · simp only [afterNameRules, List.mem_cons, List.not_mem_nil, or_false] at hrow
    rcases hrow with rfl | rfl | rfl | rfl | rfl
    · exact .again haccepts
    · exact .along (by simp) (by simp) (by simp [attributeModes])
    · exact .along (by simp) (by simp) (by simp [attributeModes])
    · exact .past (by simp)
    · exact .lastPast (by simp) (of_decide_eq_true haccepts).symm
  · cases hother
  · simp only [beforeValueRules, List.mem_cons, List.not_mem_nil, or_false] at hrow
    rcases hrow with rfl | rfl | rfl
    · exact .along (by simp) (by simp) (by simp [attributeModes])
    · exact .along (by simp) (by simp [beginQuoted]) (by simp [beginQuoted, attributeModes])
    · exact .lastPast (by simp) (of_decide_eq_true haccepts).symm
  · cases hother
    exact .along (by simp) (by simp [beginBare]) (by simp [beginBare, attributeModes])
  · simp only [valueRules, List.mem_cons, List.not_mem_nil, or_false] at hrow
    rcases hrow with rfl | rfl <;> dsimp only <;> split
    · exact .along (by simp) (by simp [addValue]) (by simp [addValue, attributeModes])
    · exact .past (by simp)
    · exact .along (by simp) (by simp) (by simp [attributeModes])
    · exact .lastPast (by simp) (of_decide_eq_true haccepts).symm
  · cases hother
    dsimp only
    split
    · exact .past (by simp)
    · exact .along (by simp) (by simp [addValue]) (by simp [addValue, attributeModes])

theorem Reads.spelled (h : Reads p [c] tokens q) (hmode : p.state ∈ attributeModes) :
    Spelled c p.data p.state q.state q.data tokens := by
  obtain ⟨rules, transition, hrules, hselect, rfl, rfl⟩ := h.exists_transition
  exact spelled_of_select hmode hrules hselect

/-- In a start tag of that name, behind the name. -/
structure InTag (name : List Char) (p : Position) : Prop where
  mode : p.state ∈ attributeModes
  text : p.data.text = ""
  held : p.data.held = ""
  tag : p.data.tag = .ofList name

/-- One more character goes on with the tag or ends it. -/
theorem InTag.next (h : InTag name p) (hread : Reads p [c] tokens q) :
    (tokens = [] ∧ InTag name q) ∨
      (c = '>' ∧ q = ⟨modeAfter (.ofList name), {}⟩ ∧
        ∃ attributes, tokens = startTokens (.ofList name) attributes) := by
  obtain ⟨mode, b⟩ := p
  obtain ⟨mode', data⟩ := q
  have hspelled : Spelled c b mode mode' data tokens := hread.spelled h.mode
  obtain ⟨-, htext, hheld, htag⟩ := h
  dsimp only at htext hheld htag
  cases hspelled with
  | along _ _ hmode => exact .inl ⟨rfl, hmode, htext, hheld, htag⟩
  | last hgt => exact .inr ⟨hgt, by rw [htag], _, by rw [htag]⟩
  | lastPast _ hgt => exact .inr ⟨hgt, by rw [htag], _, by rw [htag]⟩
  | _ => exact .inl ⟨rfl, by simp [attributeModes], htext, hheld, htag⟩

theorem inTag_between (name : List Char) (attributes : List Attribute) :
    InTag name (betweenAt (.ofList name) attributes) :=
  ⟨by simp [attributeModes], rfl, rfl, rfl⟩

/-- What may come in the name of a start tag: more of it, its end, or the end of the tag. -/
theorem startTag_next (hread : Reads (startTagAt name) [c] tokens q) :
    (c.isAlphanum = true ∧ tokens = [] ∧ q = startTagAt (name ++ [c])) ∨
    (c.isAlphanum = false ∧ tokens = [] ∧ q = betweenAt (.ofList name) []) ∨
    (c = '>' ∧ q = ⟨modeAfter (.ofList name), {}⟩ ∧ tokens = startTokens (.ofList name) []) := by
  by_cases hc : c.isAlphanum = true
  · have hstep := step_startTag_name (b := (startTagAt name).data) hc
    simp only [ofList_push] at hstep
    obtain ⟨rfl, rfl⟩ := hread.unique (.single hstep)
    exact .inl ⟨hc, rfl, rfl⟩
  · by_cases hgt : c = '>'
    · subst hgt
      obtain ⟨rfl, rfl⟩ := hread.unique (.single step_startTag_gt)
      exact .inr (.inr ⟨rfl, rfl, rfl⟩)
    · refine .inr (.inl ⟨Bool.eq_false_iff.mpr hc, ?_⟩)
      obtain ⟨rules, transition, hrules, hselect, rfl, rfl⟩ := hread.exists_transition
      cases hrules
      rcases mem_of_select hselect with ⟨row, hrow, rfl, haccepts⟩ | hother
      · simp only [startTagRules, List.mem_cons, List.not_mem_nil, or_false] at hrow
        rcases hrow with rfl | rfl | rfl | rfl
        · exact absurd haccepts hc
        · exact ⟨rfl, rfl⟩
        · exact ⟨rfl, rfl⟩
        · exact absurd (of_decide_eq_true haccepts).symm hgt
      · cases hother

end Steps

/-! ## Pieces in a row -/

/-- The text between two tags, if any. -/
def textPieces (u : List Char) : List Piece :=
  if u = [] then [] else [.text u]

theorem flatMap_chars_textPieces (u : List Char) : (textPieces u).flatMap Piece.chars = u := by
  rw [textPieces]
  split
  · next h => rw [h]; rfl
  · simp [Piece.chars]

theorem flatMap_tokens_textPieces (u : List Char) :
    (textPieces u).flatMap Piece.tokens = textTokens (.ofList u) := by
  rw [textPieces, textTokens]
  by_cases h : u = []
  · simp [h]
  · rw [if_neg h, if_neg (by simpa using h)]
    rfl

theorem mem_textPieces {u : List Char} {p : Piece} (h : p ∈ textPieces u) :
    p = .text u ∧ u ≠ [] := by
  rw [textPieces] at h
  split at h
  · cases h
  · next hu => exact ⟨List.mem_singleton.mp h, hu⟩

theorem length_textPieces_le (u : List Char) : (textPieces u).length ≤ 1 := by
  rw [textPieces]
  split <;> simp

/-- Proper pieces, no two texts side by side. -/
structure Spaced (ps : List Piece) : Prop where
  proper : ∀ p ∈ ps, p.Proper
  apart : ps.IsChain fun a b => ¬ (a.isText = true ∧ b.isText = true)

/-- Such pieces the last of which, if there is one, is a tag. -/
structure Ended (ps : List Piece) : Prop extends Spaced ps where
  last : ∀ p ∈ ps.getLast?, p.isText = false

/-- Every raw text element that begins in the row ends there. -/
def Fenced (ps : List Piece) : Prop :=
  ∀ before p after e, ps = before ++ p :: after → p.rawText? = some e → e.Closed after

section Rows

variable {ps qs : List Piece} {p : Piece} {u : List Char} {e : RawText}

theorem Ended.nil : Ended [] :=
  ⟨⟨by simp, .nil⟩, by simp⟩

theorem Ended.text (h : Ended ps) (u : List Char) : Spaced (ps ++ textPieces u) where
  proper p hp := by
    rcases List.mem_append.mp hp with hp | hp
    · exact h.proper p hp
    · obtain ⟨rfl, hu⟩ := mem_textPieces hp
      exact .text hu
  apart := by
    refine List.isChain_append.mpr ⟨h.apart, ?_, fun a ha b _ hab => ?_⟩
    · rw [textPieces]
      split <;> simp
    · rw [h.last a ha] at hab
      exact absurd hab.1 Bool.false_ne_true

theorem Spaced.tag (h : Spaced ps) (hp : p.Proper) (htag : p.isText = false) : Ended (ps ++ [p]) where
  proper q hq := by
    rcases List.mem_append.mp hq with hq | hq
    · exact h.proper q hq
    · rw [List.mem_singleton.mp hq]
      exact hp
  apart := by
    refine List.isChain_append.mpr ⟨h.apart, .singleton _, fun a _ b hb hab => ?_⟩
    rw [← Option.mem_some_iff.mp hb, htag] at hab
    exact absurd hab.2 Bool.false_ne_true
  last q hq := by
    rw [List.getLast?_concat] at hq
    rw [← Option.mem_some_iff.mp hq, htag]

theorem RawText.Closed.append (h : e.Closed ps) (qs : List Piece) : e.Closed (ps ++ qs) := by
  obtain ⟨texts, name, more, hlength, htexts, hname, rfl⟩ := h
  exact ⟨texts, name, more ++ qs, hlength, htexts, hname, by simp⟩

/-- Where something stands in a list that is told with another thing in its middle. -/
theorem place_of_split {α : Type} {l r before after : List α} {a b : α}
    (h : l ++ a :: r = before ++ b :: after) :
    (∃ more, l = before ++ b :: more ∧ after = more ++ a :: r) ∨ (before = l ∧ b = a ∧ after = r) ∨
      b ∈ r := by
  rcases List.append_eq_append_iff.mp h with ⟨more, hbefore, hmore⟩ | ⟨more, hl, hafter⟩
  · cases more with
    | nil =>
      rw [List.append_nil] at hbefore
      exact .inr (.inl ⟨hbefore, (List.cons.inj hmore).1.symm, (List.cons.inj hmore).2.symm⟩)
    | cons _ more =>
      refine .inr (.inr ?_)
      rw [(List.cons.inj hmore).2]
      simp
  · cases more with
    | nil =>
      rw [List.append_nil] at hl
      exact .inr (.inl ⟨hl.symm, (List.cons.inj hafter).1, (List.cons.inj hafter).2⟩)
    | cons _ more =>
      obtain ⟨rfl, rfl⟩ := List.cons.inj hafter
      exact .inl ⟨more, hl, rfl⟩

theorem Fenced.append (h : Fenced ps) (h' : Fenced qs) : Fenced (ps ++ qs) := by
  intro before p after e heq hraw
  rcases List.append_eq_append_iff.mp heq with ⟨more, hbefore, hqs⟩ | ⟨more, hps, hafter⟩
  · exact h' more p after e hqs hraw
  · cases more with
    | nil => exact h' [] p after e hafter.symm hraw
    | cons q more =>
      obtain ⟨rfl, rfl⟩ := List.cons.inj hafter
      exact (h before p more e hps hraw).append qs

theorem Fenced.of_none (h : ∀ p ∈ ps, p.rawText? = none) : Fenced ps := by
  rintro before p after e rfl hraw
  rw [h p (by simp)] at hraw
  cases hraw

theorem fenced_textPieces (u : List Char) : Fenced (textPieces u) :=
  .of_none fun p hp => by rw [(mem_textPieces hp).1]; rfl

/-- The name of a raw text element, in whatever letter case. -/
theorem toLower_of_closing {name : List Char} (hname : name.map Char.toLower = e.name.toList) :
    (String.ofList name).toLower = e.name := by
  rw [← String.toList_inj, Case.toList_toLower, String.toList_ofList, hname]

theorem isAlphanum_of_closing {name : List Char} (hname : name.map Char.toLower = e.name.toList) :
    ∀ c ∈ name, c.isAlphanum = true := by
  intro c hc
  have hall : e.name.toList.all Char.isAlphanum = true := by cases e <;> decide
  have hmem : c.toLower ∈ e.name.toList := by
    rw [← hname]
    exact List.mem_map_of_mem hc
  exact Case.isAlphanum_of_lower (List.all_eq_true.mp hall _ hmem)

theorem ne_nil_of_closing {name : List Char} (hname : name.map Char.toLower = e.name.toList) :
    name ≠ [] := by
  rintro rfl
  cases e <;> cases hname

/-- A raw text element, from its start tag to its own end tag. -/
theorem fenced_raw {name : List Char} (hraw : p.rawText? = some e)
    (hname : name.map Char.toLower = e.name.toList) (u : List Char) :
    Fenced (p :: textPieces u ++ [.endTag name]) := by
  have hclosed : e.Closed (textPieces u ++ [.endTag name]) := by
    refine ⟨textPieces u, name, [], length_textPieces_le u, ?_, ?_, rfl⟩
    · intro q hq
      rw [(mem_textPieces hq).1]
      rfl
    · exact toLower_of_closing hname
  intro before q after e' heq hraw'
  rcases place_of_split (show [] ++ p :: (textPieces u ++ [.endTag name]) = _ from heq) with
    ⟨more, hnil, -⟩ | ⟨-, rfl, rfl⟩ | hmem
  · simp at hnil
  · cases hraw.symm.trans hraw'
    exact hclosed
  · refine absurd hraw' ?_
    rcases List.mem_append.mp hmem with hmem | hmem
    · rw [(mem_textPieces hmem).1]
      simp [Piece.rawText?]
    · rw [List.mem_singleton.mp hmem]
      simp [Piece.rawText?]

end Rows

/-! ## On the way -/

/-- A document of which these pieces have been read, and then these characters. -/
inductive Midst : List Piece → List Char → Position → Prop where
  | text {ps u p} : Ended ps → Fenced ps → Pending u p → Midst ps u p
  | raw {ps start e u p} : Ended (ps ++ [start]) → Fenced ps → start.rawText? = some e →
    RawPending e u p → Midst (ps ++ [start]) u p
  | name {ps name} : Spaced ps → Fenced ps → name ≠ [] → (∀ c ∈ name, c.isAlphanum = true) →
    Reads tokenizer.start ('<' :: name) [] (startTagAt name) → Midst ps ('<' :: name) (startTagAt name)
  | attributes {ps name c rest p} : Spaced ps → Fenced ps → name ≠ [] →
    (∀ c ∈ name, c.isAlphanum = true) → c.isAlphanum = false → InTag name p →
    Reads tokenizer.start ('<' :: name ++ c :: rest) [] p → Midst ps ('<' :: name ++ c :: rest) p

section Midst

variable {ps : List Piece} {u cs : List Char} {p q : Position} {c : Char} {tokens : List Token}

theorem tokensOf_of_reads (h : Reads tokenizer.start cs tokens q) :
    tokensOf (.ofList cs) = .ok (tokens ++ textTokens (q.data.text ++ q.data.held)) := by
  obtain ⟨hrefused, htokens⟩ := h.readFrom 0
  simp only [tokensOf, read, String.toList_ofList, Reading.failure?, hrefused, Option.map_none, htokens]

/-- The end of a start tag. What comes after is a text, or the element's raw text. -/
theorem Midst.started {name rest : List Char} {attributes : List Attribute} (hps : Spaced ps)
    (hfenced : Fenced ps) (hne : name ≠ []) (hname : ∀ c ∈ name, c.isAlphanum = true)
    (hrest : ∀ c, rest.head? = some c → c.isAlphanum = false)
    (hread : Reads tokenizer.start (Piece.startTag name rest attributes).chars
      (startTokens (.ofList name) attributes) ⟨modeAfter (.ofList name), {}⟩) :
    Midst (ps ++ [.startTag name rest attributes]) [] ⟨modeAfter (.ofList name), {}⟩ := by
  have hproper : (Piece.startTag name rest attributes).Proper := by
    refine .startTag hne hname hrest ?_
    rw [tokensOf_of_reads hread]
    simp [Piece.tokens, textTokens]
  have hended := hps.tag hproper rfl
  rw [modeAfter]
  cases hraw : RawText.ofTag? (.ofList name) with
  | none =>
    refine .text hended (hfenced.append (.of_none fun p hp => ?_)) .start
    rw [List.mem_singleton.mp hp]
    exact hraw
  | some e => exact .raw hended hfenced hraw .start

/-- What a character adds to a document: it waits with those before it, or pieces come to an end
with it, whose tokens are the tokens of the step. -/
theorem Midst.next (h : Midst ps u p) (hread : Reads p [c] tokens q) :
    ∃ ps' u', Midst ps' u' q ∧
      ps'.flatMap Piece.chars ++ u' = ps.flatMap Piece.chars ++ u ++ [c] ∧
      ps'.flatMap Piece.tokens = ps.flatMap Piece.tokens ++ tokens := by
  cases h with
  | text hps hfenced hpending =>
    rcases hpending.next c with ⟨q', hq, hmore⟩ | ⟨v, rfl, hc, hq⟩ | ⟨v, name, rfl, hname, rfl, hq⟩
    · obtain ⟨rfl, rfl⟩ := hread.unique hq
      exact ⟨ps, _, .text hps hfenced hmore, by simp, by simp⟩
    · obtain ⟨rfl, rfl⟩ := hread.unique hq
      have hlt : Reads tokenizer.start ['<'] [] ⟨.tagOpen, { held := "<" }⟩ := Pending.start.lt
      have halone : Reads tokenizer.start ('<' :: [c]) [] (startTagAt [c]) :=
        hlt.append (.single (step_tagOpen_name hc))
      refine ⟨ps ++ textPieces v, ['<', c],
        .name (hps.text v) (hfenced.append (fenced_textPieces v)) (by simp) (by simpa using hc) halone,
        ?_, ?_⟩
      · simp [flatMap_chars_textPieces]
      · simp [flatMap_tokens_textPieces]
    · obtain ⟨rfl, rfl⟩ := hread.unique hq
      have hended := (hps.text v).tag (.endTag hname) rfl
      have htag : Fenced [Piece.endTag name] := .of_none fun p hp => by rw [List.mem_singleton.mp hp]; rfl
      refine ⟨ps ++ textPieces v ++ [.endTag name], [],
        .text hended ((hfenced.append (fenced_textPieces v)).append htag) .start, ?_, ?_⟩
      · simp [flatMap_chars_textPieces, Piece.chars]
      · simp [flatMap_tokens_textPieces, Piece.tokens]
  | @raw ps start e _ _ hps hfenced hraw hpending =>
    rcases hpending.next c with ⟨q', hq, hmore⟩ | ⟨v, read, rfl, hlower, hq⟩
    · obtain ⟨rfl, rfl⟩ := hread.unique hq
      exact ⟨ps ++ [start], _, .raw hps hfenced hraw hmore, by simp, by simp⟩
    · obtain ⟨rfl, rfl⟩ := hread.unique hq
      obtain ⟨name, rfl, hname, rfl⟩ := closing_split hlower
      have hended := (hps.text v).tag (.endTag (isAlphanum_of_closing hname)) rfl
      have hupper := Case.toUpper_of_toLower_eq (toLower_of_closing hname)
      have hall : Fenced (ps ++ (start :: textPieces v ++ [.endTag name])) :=
        hfenced.append (fenced_raw hraw hname v)
      have hassoc : ps ++ (start :: textPieces v ++ [.endTag name]) =
          ps ++ [start] ++ textPieces v ++ [.endTag name] := by simp
      rw [hassoc] at hall
      refine ⟨_, [], .text hended hall .start, ?_, ?_⟩
      · simp [flatMap_chars_textPieces, Piece.chars]
      · simp [flatMap_tokens_textPieces, Piece.tokens, ne_nil_of_closing hname, hupper]
  | @name ps name hps hfenced hne hname halone =>
    rcases startTag_next hread with ⟨hc, rfl, rfl⟩ | ⟨hc, rfl, rfl⟩ | ⟨rfl, rfl, rfl⟩
    · refine ⟨ps, _, .name hps hfenced (by simp) ?_ (halone.append hread), by simp, by simp⟩
      intro x hx
      rcases List.mem_append.mp hx with hx | hx
      · exact hname x hx
      · rw [List.mem_singleton.mp hx, hc]
    · exact ⟨ps, _, .attributes hps hfenced hne hname hc (inTag_between name [])
        (halone.append hread), by simp, by simp⟩
    · have hall := halone.append hread
      refine ⟨ps ++ [.startTag name [] []], [], .started hps hfenced hne hname (by simp) ?_, ?_, ?_⟩
      · simpa [Piece.chars] using hall
      · simp [Piece.chars]
      · simp [Piece.tokens]
  | @attributes ps name d rest _ hps hfenced hne hname hd hin halone =>
    have hall := halone.append hread
    have hassoc : '<' :: name ++ d :: rest ++ [c] = '<' :: name ++ d :: (rest ++ [c]) := by simp
    rcases hin.next hread with ⟨rfl, hin'⟩ | ⟨rfl, rfl, attributes, rfl⟩
    · rw [hassoc] at hall
      exact ⟨ps, _, .attributes hps hfenced hne hname hd hin' hall, by simp, by simp⟩
    · refine ⟨ps ++ [.startTag name (d :: rest) attributes], [],
        .started hps hfenced hne hname (by simpa using hd) ?_, ?_, ?_⟩
      · simpa [Piece.chars] using hall
      · simp [Piece.chars]
      · simp [Piece.tokens]

theorem Midst.reads (h : Midst ps u p) (hread : Reads p cs tokens q) :
    ∃ ps' u', Midst ps' u' q ∧
      ps'.flatMap Piece.chars ++ u' = ps.flatMap Piece.chars ++ u ++ cs ∧
      ps'.flatMap Piece.tokens = ps.flatMap Piece.tokens ++ tokens := by
  induction cs generalizing ps u p tokens with
  | nil =>
    obtain ⟨rfl, rfl⟩ := hread.eq_of_nil
    exact ⟨ps, u, h, by simp, by simp⟩
  | cons c cs ih =>
    obtain ⟨q', first, later, hstep, hlater, rfl⟩ := hread.uncons
    obtain ⟨ps', u', h', hchars, htokens⟩ := h.next (.single hstep)
    obtain ⟨ps'', u'', h'', hchars', htokens'⟩ := ih h' hlater
    refine ⟨ps'', u'', h'', ?_, ?_⟩
    · rw [hchars', hchars, List.append_assoc _ [c]]
      rfl
    · rw [htokens', htokens, List.append_assoc]

end Midst

/-! ## Whole documents -/

/-- Pieces in a row, and a tail of the document that they leave. -/
structure Covered (pieces : List Piece) (tail : List Char) : Prop extends Spaced pieces where
  raw : ∀ before p after e, pieces = before ++ p :: after → p.rawText? = some e →
    e.Closed after ∨ RawText.Cut after tail
  tail : tail = [] ∨ Unterminated tail

/-- A document that is not refused is read to its end. -/
theorem exists_reads {p : Position} {index : Nat} {cs : List Char}
    (h : (readFrom p index cs).refused = none) : ∃ q tokens, Reads p cs tokens q := by
  induction cs generalizing p index with
  | nil => exact ⟨p, [], .nil p⟩
  | cons c cs ih =>
    simp only [readFrom] at h
    cases hstep : tokenizer.step p c with
    | mk q events fault =>
      rw [hstep] at h
      cases fault with
      | some fault => cases h
      | none =>
        obtain ⟨r, later, hlater⟩ := ih h
        exact ⟨r, _, .cons hstep hlater⟩

theorem tokensOf_eq_ok {input : String} {tokens : List Token} (h : tokensOf input = .ok tokens) :
    (read input.toList).failure? input.toList = none ∧ (read input.toList).tokens.map (·.2) = tokens := by
  simp only [tokensOf] at h
  split at h
  · cases h
  · next hfailure => exact ⟨hfailure, Except.ok.inj h⟩

theorem exists_reads_of_tokensOf {input : String} {tokens : List Token}
    (h : tokensOf input = .ok tokens) :
    ∃ q first, Reads tokenizer.start input.toList first q :=
  exists_reads (Option.map_eq_none_iff.mp (tokensOf_eq_ok h).1)

theorem RawPending.flush {e : RawText} {u : List Char} {p : Position} (h : RawPending e u p) :
    p.data.text ++ p.data.held = String.ofList u := by
  cases h with
  | text u => rw [← String.toList_inj]; simp
  | close u read => rw [← String.toList_inj]; simp

/-- At the end of the input what waits is a text, or a start tag that does not end. -/
theorem Midst.finish {ps : List Piece} {u : List Char} {p : Position} (h : Midst ps u p) :
    ∃ pieces tail, Covered pieces tail ∧
      pieces.flatMap Piece.chars ++ tail = ps.flatMap Piece.chars ++ u ∧
      pieces.flatMap Piece.tokens =
        ps.flatMap Piece.tokens ++ textTokens (p.data.text ++ p.data.held) := by
  cases h with
  | text hps hfenced hpending =>
    have hall := hfenced.append (fenced_textPieces u)
    refine ⟨ps ++ textPieces u, [], ⟨hps.text u, fun before q after e heq hraw => ?_, .inl rfl⟩, ?_, ?_⟩
    · exact .inl (hall before q after e heq hraw)
    · simp [flatMap_chars_textPieces]
    · rw [hpending.flush, List.flatMap_append, flatMap_tokens_textPieces]
  | @raw ps start e _ _ hps hfenced hraw hpending =>
    refine ⟨ps ++ [start] ++ textPieces u, [],
      ⟨hps.text u, fun before q after e' heq hraw' => ?_, .inl rfl⟩, ?_, ?_⟩
    · rw [List.append_assoc, List.singleton_append] at heq
      rcases place_of_split heq with ⟨more, hps, rfl⟩ | ⟨-, rfl, rfl⟩ | hmem
      · exact .inl ((hfenced before q more e' hps hraw').append _)
      · refine .inr ⟨length_textPieces_le u, fun r hr => ?_, rfl⟩
        rw [(mem_textPieces hr).1]
        rfl
      · rw [(mem_textPieces hmem).1] at hraw'
        cases hraw'
    · simp [flatMap_chars_textPieces]
    · rw [hpending.flush, List.flatMap_append, flatMap_tokens_textPieces]
  | @name ps name hps hfenced hne hname halone =>
    obtain ⟨c, cs, rfl⟩ := List.exists_cons_of_ne_nil hne
    have hempty := tokensOf_of_reads halone
    refine ⟨ps, '<' :: c :: cs, ⟨hps, fun before q after e heq hraw => ?_, .inr ?_⟩, rfl, ?_⟩
    · exact .inl (hfenced before q after e heq hraw)
    · exact ⟨c, cs, rfl, hname c List.mem_cons_self, hempty⟩
    · simp [textTokens]
  | @attributes ps name d rest _ hps hfenced hne hname hd hin halone =>
    obtain ⟨c, cs, rfl⟩ := List.exists_cons_of_ne_nil hne
    have hempty := tokensOf_of_reads halone
    rw [hin.text, hin.held] at hempty
    refine ⟨ps, _, ⟨hps, fun before q after e heq hraw => ?_, .inr ?_⟩, rfl, ?_⟩
    · exact .inl (hfenced before q after e heq hraw)
    · exact ⟨c, cs ++ d :: rest, rfl, hname c List.mem_cons_self, hempty⟩
    · simp [hin.text, hin.held, textTokens]

/-- The text of a token that is a text. -/
def Token.text? : Token → Option String
  | .text s => some s
  | _ => none

theorem texts_of_pieces (pieces : List Piece) :
    ((pieces.flatMap Piece.tokens).filterMap Token.text?).flatMap String.toList =
      (pieces.filter (·.isText)).flatMap Piece.chars := by
  induction pieces with
  | nil => rfl
  | cons p pieces ih =>
    rw [List.flatMap_cons, List.filterMap_append, List.flatMap_append, ih]
    cases p with
    | text s => simp [Piece.tokens, Token.text?, Piece.isText, Piece.chars]
    | startTag name rest attributes =>
      simp only [Piece.tokens, startTokens]
      split <;> simp [Token.text?, Piece.isText]
    | endTag name =>
      simp only [Piece.tokens]
      split <;> simp [Token.text?, Piece.isText]

/-- **Nothing is lost in cutting.** A document that is read to its end is pieces in a row and a tail:
the tokens of the document are those of its pieces, in order; each piece is proper, no two texts are
side by side, and after the start tag of a raw text element comes at most one text and then its own
end tag or the end of the document; the tail is nothing, or a start tag that does not end. So the
texts of the document, put together, are just the characters that stand in no tag. -/
theorem tokens_of_pieces {input : String} {tokens : List Token} (h : tokensOf input = .ok tokens) :
    ∃ (pieces : List Piece) (tail : List Char),
      input.toList = pieces.flatMap Piece.chars ++ tail ∧
      tokens = pieces.flatMap Piece.tokens ∧
      (∀ p ∈ pieces, p.Proper) ∧
      (pieces.IsChain fun a b => ¬ (a.isText = true ∧ b.isText = true)) ∧
      (∀ before p after e, pieces = before ++ p :: after → p.rawText? = some e →
        e.Closed after ∨ RawText.Cut after tail) ∧
      (tail = [] ∨ Unterminated tail) ∧
      (tokens.filterMap Token.text?).flatMap String.toList =
        (pieces.filter (·.isText)).flatMap Piece.chars := by
  obtain ⟨q, first, hread⟩ := exists_reads_of_tokensOf h
  have htokens := tokensOf_of_reads hread
  rw [String.ofList_toList, h, Except.ok.injEq] at htokens
  have hstart : Midst [] [] tokenizer.start := .text .nil (.of_none (by simp)) .start
  obtain ⟨ps, u, hmidst, hchars, hfirst⟩ := hstart.reads hread
  obtain ⟨pieces, tail, hcovered, hall, hpieces⟩ := hmidst.finish
  have heq : tokens = pieces.flatMap Piece.tokens := by
    rw [hpieces, hfirst, htokens]
    rfl
  refine ⟨pieces, tail, ?_, heq, hcovered.proper, hcovered.apart, hcovered.raw, hcovered.tail, ?_⟩
  · rw [hall, hchars]
    rfl
  · rw [heq, texts_of_pieces]

/-- Half tags, an end tag without a name, a raw text with half its end tag in it, and a start tag
that does not end. -/
theorem tokens_of_pieces_halves :
    let input := "<</x<i>a</><SCRIPT>1<2</sc</Script>b</i <br a='>"
    let tokens := [Token.text "<</x", .startTag "I" [], .text "a", .startTag "SCRIPT" [],
      .text "1<2</sc", .endTag "SCRIPT", .text "b</i "]
    tokensOf input = .ok tokens ∧
    ∃ (pieces : List Piece) (tail : List Char),
      input.toList = pieces.flatMap Piece.chars ++ tail ∧
      tokens = pieces.flatMap Piece.tokens ∧ (∀ p ∈ pieces, p.Proper) ∧
      (tail = [] ∨ Unterminated tail) := by
  intro input tokens
  have hok : tokensOf input = .ok tokens := by decide +kernel
  obtain ⟨pieces, tail, hchars, htokens, hproper, -, -, htail, -⟩ := tokens_of_pieces hok
  exact ⟨hok, pieces, tail, hchars, htokens, hproper, htail⟩

end Hypertext.Markup
