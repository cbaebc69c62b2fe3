/-
Attribute values, written and read again. Nothing in a value is escaped: it is
written between quotes of the one kind or the other, whichever is not in it.
So a value comes back just where one of them is not. Quoted values are such;
but one that is not quoted in the source may hold both, behind its first
character. It is written in double quotes, which its own first double quote
ends, and what is behind that is no longer value.
-/
import Hypertext.Proofs.Markup.Orderly
import Hypertext.Proofs.Tree.Runs

namespace Hypertext.Markup

open Automaton Buffers

section Written

variable {e : Element} {a : Attribute}

/-- The markup of an element alone. -/
theorem outer_alone (e : Element) : (Tree.empty.create (.element e)).2.outer ⟨1⟩ =
    (Forest.element e .nil .nil).written := by
  have hl := Tree.linked_empty.create (.element e)
  have hcontent : (Tree.empty.create (.element e)).2.content? ⟨1⟩ = some (.element e) := rfl
  have hchildren : (Tree.empty.create (.element e)).2.children ⟨1⟩ = [] := rfl
  rw [hl.outer_of_element hcontent, hchildren]
  simp [Forest.written, String.join]

/-- An element without content is read back, raw text or not, void or not. -/
theorem reads_alone (he : e.Proper) :
    tokensOf (Forest.element e .nil .nil).written =
      .ok [.startTag e.tag e.attributes.entries, .endTag e.tag] := by
  have hbelongs : e.Belongs (some { tag := "BODY" }) := fun h => absurd h (by decide)
  have hproper : (Forest.element e .nil .nil).Proper (some { tag := "BODY" }) := by
    cases hraw : RawText.ofTag? e.tag with
    | none => exact .element he hbelongs hraw (fun _ => rfl) .nil .nil
    | some r => exact .raw he hbelongs hraw (.inl rfl) .nil
  obtain ⟨q, v, tokens, hread, hpending, htokens⟩ := hproper.reads .start (.inl rfl)
  have hall := tokensOf_of_reads hread
  rw [String.ofList_toList, hpending.flush, htokens] at hall
  rw [hall]
  simp [Forest.tokens, textTokens]

/-- Of a value with both quotes, what is before its first double quote is read as the value, and
no token has come when the tag goes on behind that. -/
theorem reads_torn (hne : e.tag ≠ "") (hcapital : ∀ c ∈ e.tag.toList, isCapital c = true)
    (hentries : e.attributes.entries = [a]) (hname : ProperName a.name)
    (hdouble : '"' ∈ a.value.toList) (hsingle : '\'' ∈ a.value.toList) :
    ∃ (value : String) (before rest : List Char), value ≠ a.value ∧
      (Forest.element e .nil .nil).written.toList = before ++ rest ∧
      Reads tokenizer.start before [] (betweenAt e.tag.toLower [⟨a.name, value⟩]) := by
  obtain ⟨first, later, hvalue, hfirst⟩ := List.eq_append_cons_of_mem hdouble
  have hquote : quoteFor a.value = '"' := by
    rw [quoteFor, if_neg fun hone => hone.2 hsingle]
  have hquote' : quoteFor (.ofList first) = '"' := by
    rw [quoteFor, String.toList_ofList, if_neg fun hone => hfirst hone.1]
  have hproper : (⟨a.name, .ofList first⟩ : Attribute).Proper :=
    ⟨hname, by rw [String.toList_ofList]; exact fun hboth => hfirst hboth.1⟩
  obtain ⟨e', he, htag⟩ : ∃ e' : Element, e'.Proper ∧ e'.tag = e.tag :=
    ⟨{ e with attributes := ⟨[⟨a.name, .ofList first⟩]⟩ },
      ⟨hne, hcapital, by simpa using hproper, by simp⟩, rfl⟩
  have hlower := toLower_tag_ne he
  have halnum := isAlphanum_tag he
  rw [htag] at hlower halnum
  have hchars : e.tag.toLower.toList ≠ [] :=
    fun hnil => hlower (String.toList_eq_nil_iff.mp hnil)
  have hnamed := Pending.start.named hchars halnum
  have hread := hnamed.append (reads_attribute hproper (.single (step_startTag_blank rfl)))
  rw [String.ofList_toList] at hread
  have htail : ∃ tail, (Forest.element e .nil .nil).written.toList = e.startTag.toList ++ tail := by
    by_cases hvoid : isVoid e.tag = true
    · exact ⟨[], by simp [Forest.written, hvoid]⟩
    · exact ⟨e.endTag.toList, by simp [Forest.written, hvoid]⟩
  obtain ⟨tail, htail⟩ := htail
  refine ⟨.ofList first, _, later ++ '"' :: '>' :: tail, ?_, ?_, hread⟩
  · intro heq
    have hlength := congrArg (fun s => s.toList.length) heq
    simp only [String.toList_ofList, hvalue, List.length_append, List.length_cons] at hlength
    omega
  · rw [htail]
    simp [Element.startTag, hentries, Attribute.written, hquote, hquote', hvalue]

/-- In a start tag that goes on after some attributes, these are the first. -/
theorem extends_beginning (first : List Attribute) : Extends (first <+: ·) :=
  fun _ _ h _ => h.trans (List.prefix_append _ _)

/-- A value with both quotes is not read back. -/
theorem not_reads_torn (hne : e.tag ≠ "") (hcapital : ∀ c ∈ e.tag.toList, isCapital c = true)
    (hentries : e.attributes.entries = [a]) (hname : ProperName a.name)
    (hdouble : '"' ∈ a.value.toList) (hsingle : '\'' ∈ a.value.toList) (tag : String)
    (later : List Token) :
    tokensOf (Forest.element e .nil .nil).written ≠ .ok (.startTag tag [a] :: later) := by
  intro hread
  obtain ⟨value, before, rest, hvalue, hsplit, hbefore⟩ :=
    reads_torn hne hcapital hentries hname hdouble hsingle
  obtain ⟨q, first, hfirst⟩ := exists_reads_of_tokensOf hread
  have hall := tokensOf_of_reads hfirst
  rw [String.ofList_toList, hread, Except.ok.injEq] at hall
  rw [hsplit] at hfirst
  obtain ⟨more, hmore, hfirst⟩ := hfirst.after hbefore
  rw [List.nil_append] at hfirst
  have hnoting := noting_between ([⟨a.name, value⟩] <+: ·) e.tag.toLower.toList (List.prefix_refl _)
  rw [String.ofList_toList] at hnoting
  rcases hnoting.reads (extends_beginning _) hmore with ⟨rfl, hq⟩ | ⟨as, rest', has, rfl⟩
  · rw [hfirst, hq.text, hq.held] at hall
    simp [textTokens] at hall
  · rw [hfirst, startTokens, List.cons_append, List.cons_append, List.cons.injEq,
      Token.startTag.injEq] at hall
    rw [← hall.1.2] at has
    obtain ⟨none, hnone⟩ := has
    rw [List.singleton_append, List.cons.injEq] at hnone
    exact hvalue (congrArg Attribute.value hnone.1)

end Written

/-- The attributes of start tags have proper names. -/
theorem properName_of_tokensOf {input : String} {tokens : List Token}
    (h : tokensOf input = .ok tokens) {tag : String} {attributes : List Attribute}
    (hstart : .startTag tag attributes ∈ tokens) {a : Attribute} (ha : a ∈ attributes) :
    ProperName a.name := by
  obtain ⟨-, htokens⟩ := tokensOf_eq_ok h
  obtain ⟨phase, horderly⟩ := orderly_of_read input
  rw [htokens] at horderly
  obtain ⟨before, after, hturn⟩ := horderly.exists_turn hstart
  cases hturn with
  | startTag _ _ hnames => exact hnames a ha

/-- **Values read back.** An attribute of a start tag of any document, alone in an element of any
name, is read back from the markup of the element, as its only attribute, where one kind of quotes
is not in its value; where both are, it never is. -/
theorem value_read_back {input : String} {tokens : List Token} {tag : String}
    {attributes : List Attribute} {a : Attribute} (h : tokensOf input = .ok tokens)
    (hstart : .startTag tag attributes ∈ tokens) (ha : a ∈ attributes) {e : Element}
    (hne : e.tag ≠ "") (hcapital : ∀ c ∈ e.tag.toList, isCapital c = true)
    (hentries : e.attributes.entries = [a]) :
    let markup := (Tree.empty.create (.element e)).2.outer ⟨1⟩
    (¬ ('"' ∈ a.value.toList ∧ '\'' ∈ a.value.toList) →
      tokensOf markup = .ok [.startTag e.tag [a], .endTag e.tag]) ∧
    ('"' ∈ a.value.toList ∧ '\'' ∈ a.value.toList →
      ∀ tag' later, tokensOf markup ≠ .ok (.startTag tag' [a] :: later)) := by
  intro markup
  have hmarkup : markup = (Forest.element e .nil .nil).written := outer_alone e
  have hname := properName_of_tokensOf h hstart ha
  rw [hmarkup]
  constructor
  · intro hone
    have he : e.Proper := ⟨hne, hcapital, by simpa [hentries] using ⟨hname, hone⟩, by simp [hentries]⟩
    rw [reads_alone he, hentries]
  · rintro ⟨hdouble, hsingle⟩ tag' later
    exact not_reads_torn hne hcapital hentries hname hdouble hsingle tag' later

/-- A value that is not quoted holds both, and what is written is not read back. -/
theorem value_read_back_torn :
    tokensOf "<p a=x\"'>" = .ok [.startTag "P" [⟨"a", "x\"'"⟩]] ∧
    ∀ tag later, tokensOf ((Tree.empty.create (.element
      { tag := "P", attributes := ⟨[⟨"a", "x\"'"⟩]⟩ })).2.outer ⟨1⟩) ≠
        .ok (.startTag tag [⟨"a", "x\"'"⟩] :: later) := by
  have hok : tokensOf "<p a=x\"'>" = .ok [.startTag "P" [⟨"a", "x\"'"⟩]] := by decide +kernel
  refine ⟨hok, ?_⟩
  have hcapital : "P".toList.all isCapital = true := by decide
  have hback := value_read_back hok (List.mem_singleton.mpr rfl) (List.mem_singleton.mpr rfl)
    (e := { tag := "P", attributes := ⟨[⟨"a", "x\"'"⟩]⟩ }) (by decide)
    (List.all_eq_true.mp hcapital) rfl
  exact hback.2 (by decide)

end Hypertext.Markup
