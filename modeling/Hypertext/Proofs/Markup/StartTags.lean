/-
Start tags however they are spelled. An attribute stands alone, or with a value
in quotes or without, and white space may be around its `=`; between two of them
comes white space, and with it as many slashes as one likes. All of these give
the attributes in the order of the source, each as often as it stands there
(`start_tag_spelled`).

Behind a name without a value it is not known yet whether one comes, so the
attribute is only put to the others when something else has come instead. What
is told of a position is which attributes there are once that is done
(`AfterItem`, `BeforeItem`).
-/
import Hypertext.Proofs.Markup.Orderly

namespace Hypertext.Markup

open Automaton Buffers

/-! ## Spellings -/

/-- The text spells the attribute. -/
inductive AttributeSpelling : List Char → Attribute → Prop where
  | alone {name} : ProperName (.ofList name) → AttributeSpelling name ⟨.ofList name, ""⟩
  | quoted {name before after quote value} : ProperName (.ofList name) →
    (∀ c ∈ before, isBlank c = true) → (∀ c ∈ after, isBlank c = true) →
    quote = '"' ∨ quote = '\'' → quote ∉ value →
    AttributeSpelling (name ++ (before ++ '=' :: (after ++ quote :: (value ++ [quote]))))
      ⟨.ofList name, .ofList value⟩
  | bare {name before after c value} : ProperName (.ofList name) →
    (∀ x ∈ before, isBlank x = true) → (∀ x ∈ after, isBlank x = true) →
    c ∉ ['"', '\''] → (∀ x ∈ c :: value, isBlank x = false ∧ x ≠ '>') →
    AttributeSpelling (name ++ (before ++ '=' :: (after ++ c :: value)))
      ⟨.ofList name, .ofList (c :: value)⟩

/-- White space, and any white space and slashes behind it. -/
def Separates (cs : List Char) : Prop :=
  ∃ c rest, cs = c :: rest ∧ isBlank c = true ∧ ∀ x ∈ rest, isBlank x = true ∨ x = '/'

/-- The text spells the attributes one after the other, each behind a separator. -/
inductive AttributesSpelling : List Char → List Attribute → Prop where
  | nil : AttributesSpelling [] []
  | cons {separator cs rest a attributes} : Separates separator → AttributeSpelling cs a →
    AttributesSpelling rest attributes →
    AttributesSpelling (separator ++ (cs ++ rest)) (a :: attributes)

/-- The text spells a start tag of that name with these attributes. -/
inductive StartTagSpelling : List Char → List Char → List Attribute → Prop where
  | mk {name cs trailer attributes} : name ≠ [] → (∀ c ∈ name, c.isAlphanum = true) →
    AttributesSpelling cs attributes → trailer = [] ∨ Separates trailer →
    StartTagSpelling ('<' :: (name ++ (cs ++ (trailer ++ ['>'])))) name attributes

/-! ## Positions -/

/-- Right behind the name of a start tag or an attribute in it; these are the attributes so far. -/
inductive AfterItem (tag : String) : List Attribute → Position → Prop where
  | tag : AfterItem tag [] ⟨.startTag, { tag }⟩
  | alone {before name} : name ≠ "" → AfterItem tag (before ++ [⟨name, ""⟩])
    ⟨.attributeName, { tag, attributes := before, name }⟩
  | quoted {attributes} : AfterItem tag attributes (betweenAt tag attributes)
  | bare {before name value} : name ≠ "" → AfterItem tag (before ++ [⟨name, value⟩])
    ⟨.value, { tag, attributes := before, name, value }⟩

/-- Behind a separator in a start tag; these are the attributes so far. -/
inductive BeforeItem (tag : String) : List Attribute → Position → Prop where
  | done {attributes} : BeforeItem tag attributes (betweenAt tag attributes)
  | pending {before name} : name ≠ "" → BeforeItem tag (before ++ [⟨name, ""⟩])
    ⟨.afterName, { tag, attributes := before, name }⟩

section Positions

variable {tag : String} {attributes more : List Attribute} {p : Position} {c : Char} {cs : List Char}
  {a : Attribute}

theorem AfterItem.blank (h : AfterItem tag attributes p) (hc : isBlank c = true) :
    ∃ q, Reads p [c] [] q ∧ BeforeItem tag attributes q := by
  cases h with
  | tag => exact ⟨_, .single (step_startTag_blank hc), .done⟩
  | alone hname => exact ⟨_, .single (step_named_blank (.inl rfl) hc), .pending hname⟩
  | quoted => exact ⟨_, .single (step_between_skip (.inl hc)), .done⟩
  | @bare before name value hname =>
    have hstep := step_value_blank (b := { tag, attributes := before, name, value }) rfl hc
    rw [endAttribute_named hname] at hstep
    exact ⟨_, .single hstep, .done⟩

theorem BeforeItem.skip (h : BeforeItem tag attributes p) (hc : isBlank c = true ∨ c = '/') :
    ∃ q, Reads p [c] [] q ∧ BeforeItem tag attributes q := by
  cases h with
  | done => exact ⟨_, .single (step_between_skip hc), .done⟩
  | @pending before name hname =>
    rcases hc with hc | rfl
    · exact ⟨_, .single (step_named_blank (.inr rfl) hc), .pending hname⟩
    · have hstep := step_afterName_slash (b := { tag, attributes := before, name })
      rw [endAttribute_named hname] at hstep
      exact ⟨_, .single hstep, .done⟩

theorem BeforeItem.skips (h : BeforeItem tag attributes p)
    (hcs : ∀ c ∈ cs, isBlank c = true ∨ c = '/') :
    ∃ q, Reads p cs [] q ∧ BeforeItem tag attributes q := by
  induction cs generalizing p with
  | nil => exact ⟨p, .nil p, h⟩
  | cons c cs ih =>
    obtain ⟨q, hq, hbefore⟩ := h.skip (hcs c List.mem_cons_self)
    obtain ⟨r, hr, hbefore'⟩ := ih hbefore fun x hx => hcs x (.tail _ hx)
    exact ⟨r, hq.append hr, hbefore'⟩

/-- A separator loses no attribute. -/
theorem AfterItem.separated (h : AfterItem tag attributes p) (hcs : Separates cs) :
    ∃ q, Reads p cs [] q ∧ BeforeItem tag attributes q := by
  obtain ⟨c, rest, rfl, hc, hrest⟩ := hcs
  obtain ⟨q, hq, hbefore⟩ := h.blank hc
  obtain ⟨r, hr, hbefore'⟩ := hbefore.skips hrest
  exact ⟨r, hq.append hr, hbefore'⟩

/-- The first character of a name ends what was pending before it. -/
theorem BeforeItem.first (h : BeforeItem tag attributes p) (hc : c.isAlphanum = true) :
    Reads p [c] [] (nameAt tag attributes [c]) := by
  cases h with
  | done => exact .single (step_between_name hc)
  | @pending before name hname =>
    have hstep := step_afterName_name (b := { tag, attributes := before, name }) hc
    rw [endAttribute_named hname] at hstep
    exact .single hstep

theorem BeforeItem.name {name : List Char} (h : BeforeItem tag attributes p)
    (hname : ProperName (.ofList name)) : Reads p name [] (nameAt tag attributes name) := by
  obtain ⟨c, cs, hchars, hc, hcs⟩ := hname
  rw [String.toList_ofList] at hchars
  rw [hchars]
  exact (h.first hc).append (reads_nameChars [c] hcs)

/-- Characters that are each passed over. -/
theorem Reads.idle {P : Char → Prop} (hstep : ∀ c, P c → tokenizer.step p c = { configuration := p })
    (hcs : ∀ c ∈ cs, P c) : Reads p cs [] p := by
  induction cs with
  | nil => exact .nil p
  | cons c cs ih =>
    exact .cons (hstep c (hcs c List.mem_cons_self)) (ih fun x hx => hcs x (.tail _ hx))

/-- The sign between a name and a value, and the white space around it. -/
theorem reads_equals {name : String} {before after : List Char}
    (hbefore : ∀ c ∈ before, isBlank c = true) (hafter : ∀ c ∈ after, isBlank c = true) :
    Reads ⟨.attributeName, { tag, attributes, name }⟩ (before ++ '=' :: after) []
      ⟨.beforeValue, { tag, attributes, name }⟩ := by
  have hequals : Reads ⟨.attributeName, { tag, attributes, name }⟩ (before ++ ['=']) []
      ⟨.beforeValue, { tag, attributes, name }⟩ := by
    cases before with
    | nil => exact .single (step_named_equals (.inl rfl))
    | cons c cs =>
      have hfirst : Reads ⟨.attributeName, { tag, attributes, name }⟩ [c] []
          ⟨.afterName, { tag, attributes, name }⟩ :=
        .single (step_named_blank (.inl rfl) (hbefore c List.mem_cons_self))
      have hrest : Reads ⟨.afterName, { tag, attributes, name }⟩ cs [] ⟨.afterName, _⟩ :=
        .idle (fun _ => step_named_blank (.inr rfl)) fun x hx => hbefore x (.tail _ hx)
      exact hfirst.append (hrest.append (.single (step_named_equals (.inr rfl))))
  have hblanks : Reads ⟨.beforeValue, { tag, attributes, name }⟩ after [] ⟨.beforeValue, _⟩ :=
    .idle (fun _ => step_beforeValue_blank) hafter
  have hall := hequals.append hblanks
  rwa [List.append_assoc] at hall

/-- In a value without quotes. -/
abbrev bareAt (tag : String) (attributes : List Attribute) (name : String) (value : List Char) :
    Position :=
  ⟨.value, { tag, attributes, name, value := .ofList value }⟩

/-- A value without quotes. -/
theorem reads_bare {name : String} {value : List Char} (hquote : c ∉ ['"', '\''])
    (hvalue : ∀ x ∈ c :: value, isBlank x = false ∧ x ≠ '>') :
    Reads ⟨.beforeValue, { tag, attributes, name }⟩ (c :: value) []
      (bareAt tag attributes name (c :: value)) := by
  obtain ⟨hc, hvalue⟩ := List.forall_mem_cons.mp hvalue
  have hfirst : Reads ⟨.beforeValue, { tag, attributes, name }⟩ [c] []
      (bareAt tag attributes name [c]) := .single (step_beforeValue_bare hc.1 hquote hc.2)
  have hrest : Reads (bareAt tag attributes name [c]) value [] (bareAt tag attributes name (c :: value)) := by
    refine Reads.collect (fun v x hx => ?_) [c] value hvalue
    have hstep := step_value_bare (b := (bareAt tag attributes name v).data) rfl hx.1 hx.2
    simp only [ofList_push] at hstep
    exact hstep
  exact hfirst.append hrest

/-- However it is spelled, an attribute is one more. -/
theorem BeforeItem.attribute (h : BeforeItem tag attributes p) (ha : AttributeSpelling cs a) :
    ∃ q, Reads p cs [] q ∧ AfterItem tag (attributes ++ [a]) q := by
  cases ha with
  | alone hname => exact ⟨_, h.name hname, .alone hname.ne⟩
  | @quoted name before after quote value hname hbefore hafter hquote hvalue =>
    have hall := (h.name hname).append ((reads_equals hbefore hafter).append
      (reads_quoted hname.ne hquote hvalue))
    rw [List.append_assoc] at hall
    exact ⟨_, hall, .quoted⟩
  | @bare name before after c value hname hbefore hafter hquote hvalue =>
    have hall := (h.name hname).append ((reads_equals hbefore hafter).append
      (reads_bare hquote hvalue))
    rw [List.append_assoc] at hall
    exact ⟨_, hall, .bare hname.ne⟩

/-- So are several. -/
theorem AfterItem.several (h : AfterItem tag attributes p) (hmore : AttributesSpelling cs more) :
    ∃ q, Reads p cs [] q ∧ AfterItem tag (attributes ++ more) q := by
  induction hmore generalizing attributes p with
  | nil => exact ⟨p, .nil p, by rwa [List.append_nil]⟩
  | cons hseparator ha _ ih =>
    obtain ⟨q, hq, hbefore⟩ := h.separated hseparator
    obtain ⟨r, hr, hafter⟩ := hbefore.attribute ha
    obtain ⟨s, hs, hall⟩ := ih hafter
    rw [← List.append_cons] at hall
    exact ⟨s, hq.append (hr.append hs), hall⟩

theorem AfterItem.gt (h : AfterItem tag attributes p) :
    Reads p ['>'] (startTokens tag attributes) ⟨modeAfter tag, {}⟩ := by
  cases h with
  | tag => exact .single step_startTag_gt
  | @alone before name hname =>
    have hstep := step_named_gt (b := { tag, attributes := before, name }) (.inl rfl)
    rw [endAttribute_named hname] at hstep
    exact .single hstep
  | quoted => exact .single step_between_gt
  | @bare before name value hname =>
    have hstep := step_value_gt (b := { tag, attributes := before, name, value }) rfl
    rw [endAttribute_named hname] at hstep
    exact .single hstep

theorem BeforeItem.gt (h : BeforeItem tag attributes p) :
    Reads p ['>'] (startTokens tag attributes) ⟨modeAfter tag, {}⟩ := by
  cases h with
  | done => exact .single step_between_gt
  | @pending before name hname =>
    have hstep := step_named_gt (b := { tag, attributes := before, name }) (.inr rfl)
    rw [endAttribute_named hname] at hstep
    exact .single hstep

/-- The end of a start tag, with or without white space and slashes before it. -/
theorem AfterItem.ended (h : AfterItem tag attributes p) (hcs : cs = [] ∨ Separates cs) :
    Reads p (cs ++ ['>']) (startTokens tag attributes) ⟨modeAfter tag, {}⟩ := by
  rcases hcs with rfl | hcs
  · exact h.gt
  · obtain ⟨q, hq, hbefore⟩ := h.separated hcs
    exact hq.append hbefore.gt

end Positions

theorem modeAfter_eq (tag : String) : modeAfter tag =
    if tag.toLower = "script" then .rawText .script
    else if tag.toLower = "style" then .rawText .style
    else .text := by
  simp only [modeAfter, RawText.ofTag?]
  split
  · rfl
  · split <;> rfl

/-- A start tag after a text. -/
theorem Pending.spelled {u cs name : List Char} {p : Position} {attributes : List Attribute}
    (h : Pending u p) (hspelling : StartTagSpelling cs name attributes) :
    Reads p cs (textTokens (.ofList u) ++ startTokens (.ofList name) attributes)
      ⟨modeAfter (.ofList name), {}⟩ := by
  obtain ⟨hne, hname, hattributes, htrailer⟩ := hspelling
  obtain ⟨q, hq, hafter⟩ := (AfterItem.tag : AfterItem (.ofList name) [] _).several hattributes
  have hall := (h.named hne hname).append (hq.append (hafter.ended htrailer))
  simpa using hall

/-- **Every spelling of a start tag gives its attributes.** They come in the order of the source,
each as often as it stands there; a void element ends at once. Then the text goes on, or the raw
text of the element, with nothing left in the buffers. -/
theorem start_tag_spelled {cs name : List Char} {attributes : List Attribute}
    (h : StartTagSpelling cs name attributes) :
    tokenizer.run ⟨.text, {}⟩ cs =
      { configuration :=
          ⟨if (String.ofList name).toLower = "script" then .rawText .script
            else if (String.ofList name).toLower = "style" then .rawText .style
            else .text, {}⟩
        events := .startTag (String.ofList name).toUpper attributes ::
          if isVoid (.ofList name) then [.endTag (String.ofList name).toUpper] else [] } := by
  have hreads : Reads ⟨.text, {}⟩ cs (startTokens (.ofList name) attributes)
      ⟨modeAfter (.ofList name), {}⟩ := Pending.start.spelled h
  rw [Reads, startTokens, isVoid_toUpper] at hreads
  rw [hreads, modeAfter_eq]

/-- Every spelling there is, one behind the other, and one name twice. -/
theorem start_tag_spelled_mixed :
    let cs := "<Script a / b = \"x>'\" b='\"'\t//d= e/=\"f />".toList
    let attributes : List Attribute := [⟨"a", ""⟩, ⟨"b", "x>'"⟩, ⟨"b", "\""⟩, ⟨"d", "e/=\"f"⟩]
    StartTagSpelling cs "Script".toList attributes ∧
      tokenizer.run ⟨.text, {}⟩ cs =
        { configuration := ⟨.rawText .script, {}⟩, events := [.startTag "SCRIPT" attributes] } := by
  intro cs attributes
  have hproper (c : Char) (hc : c.isAlphanum = true) : ProperName (.ofList [c]) :=
    ⟨c, [], by simp, hc, by simp⟩
  have hblank : ∀ c ∈ [' '], isBlank c = true := by simp [isBlank]
  have halone : AttributeSpelling ['a'] ⟨"a", ""⟩ := .alone (hproper 'a' (by decide))
  have hdouble : AttributeSpelling (['b'] ++ ([' '] ++ '=' :: ([' '] ++ '"' :: (['x', '>', '\''] ++ ['"']))))
      ⟨"b", "x>'"⟩ :=
    .quoted (hproper 'b' (by decide)) hblank hblank (.inl rfl) (by decide)
  have hsingle : AttributeSpelling (['b'] ++ ([] ++ '=' :: ([] ++ '\'' :: (['"'] ++ ['\'']))))
      ⟨"b", "\""⟩ :=
    .quoted (hproper 'b' (by decide)) (by simp) (by simp) (.inr rfl) (by decide)
  have hbare : AttributeSpelling (['d'] ++ ([] ++ '=' :: ([' '] ++ 'e' :: ['/', '=', '"', 'f'])))
      ⟨"d", "e/=\"f"⟩ :=
    .bare (hproper 'd' (by decide)) (by simp) hblank (by decide) (by simp [isBlank])
  have hseparates (c : Char) (rest : List Char) (hc : isBlank c = true)
      (hrest : ∀ x ∈ rest, isBlank x = true ∨ x = '/') : Separates (c :: rest) :=
    ⟨c, rest, rfl, hc, hrest⟩
  have hall : AttributesSpelling " a / b = \"x>'\" b='\"'\t//d= e/=\"f".toList attributes :=
    .cons (hseparates ' ' [] rfl (by simp)) halone
      (.cons (hseparates ' ' ['/', ' '] rfl (by simp [isBlank])) hdouble
        (.cons (hseparates ' ' [] rfl (by simp)) hsingle
          (.cons (hseparates '\t' ['/', '/'] rfl (by simp)) hbare .nil)))
  have hname : ∀ c ∈ "Script".toList, c.isAlphanum = true := List.all_eq_true.mp (by decide)
  have hspelling : StartTagSpelling cs "Script".toList attributes :=
    .mk (by decide) hname hall (.inr (hseparates ' ' ['/'] rfl (by simp)))
  have hrun := start_tag_spelled hspelling
  rw [String.ofList_toList, show "Script".toLower = "script" by decide +kernel,
    show "Script".toUpper = "SCRIPT" by decide +kernel,
    show isVoid "Script" = false by decide +kernel] at hrun
  exact ⟨hspelling, hrun⟩

end Hypertext.Markup
