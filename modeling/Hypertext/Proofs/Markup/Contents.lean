/-
What becomes of the tokens of a document. Each text and each start tag has a
node of its own, made in their order, and all nodes come to stand in the
document; besides them there are only wrappers (`nodes_of_tokens`).

An element has the attributes of its tag as a finite map. Its entries are the
names of the tag, each where it comes first, with the values that come last
(`Attributes.entries_ofList`).
-/
import Hypertext.Proofs.Markup.Enrolled
import Hypertext.Proofs.Markup.TextOrder
import Hypertext.Proofs.Selector.Streaming

namespace Hypertext

namespace Attributes

/-- One attribute for each name, in the order in which the names come first, as it comes last. -/
def reduced (l : List Attribute) : List Attribute :=
  (l.map (·.name)).eraseDups.filterMap fun name => l.reverse.find? (·.name = name)

variable {l : List Attribute}

theorem ofList_concat (l : List Attribute) (a : Attribute) :
    ofList (l ++ [a]) = (ofList l).insert a := by
  rw [ofList, List.foldl_append]
  rfl

theorem map_name_ofList (l : List Attribute) :
    (ofList l).entries.map (·.name) = (l.map (·.name)).eraseDups := by
  induction l using List.reverseRecOn with
  | nil => rfl
  | append_singleton l a ih =>
    rw [ofList_concat, insert, map_name_put, ih, List.map_append, List.map_singleton,
      eraseDups_concat]
    simp only [List.mem_eraseDups]

/-- The last of the attributes of a name is the one that stays. -/
theorem find?_ofList (l : List Attribute) (name : String) :
    (ofList l).find? name = l.reverse.find? (·.name = name) := by
  induction l using List.reverseRecOn with
  | nil => rfl
  | append_singleton l a ih =>
    rw [ofList_concat, find?_insert, ih, List.reverse_concat, List.find?_cons]
    by_cases ha : a.name = name <;> simp [ha]

theorem filterMap_find?_name (hnodup : (l.map (·.name)).Nodup) :
    (l.map (·.name)).filterMap (fun name => l.find? (·.name = name)) = l := by
  rw [List.filterMap_map]
  exact (List.filterMap_congr fun a ha => find?_of_mem hnodup ha).trans List.filterMap_some

/-- The entries of a finite map made of a list. -/
theorem entries_ofList (l : List Attribute) : (ofList l).entries = reduced l := by
  rw [← filterMap_find?_name (ofList_spec l).2, map_name_ofList, reduced]
  exact List.filterMap_congr fun name _ => find?_ofList l name

end Attributes

namespace Tree

/-- The elements there are, in the order they were made. -/
def madeElements (t : Tree) : List NodeId :=
  t.ids.filter t.isElement

theorem pairwise_ids (t : Tree) : t.ids.Pairwise (·.index < ·.index) :=
  List.pairwise_map.mpr List.pairwise_lt_range

end Tree

namespace Markup

/-- The element that a start tag stands for. -/
def Token.element? : Token → Option Element
  | .startTag tag attributes => some ⟨tag, ⟨Attributes.reduced attributes⟩⟩
  | _ => none

/-- The element that starts, if one does. -/
def startOf : EventKind × Option Content → Option Element
  | (.elementStarted, some (.element e)) => some e
  | _ => none

section Elements

variable {t : Tree} {log : List Notice}

/-- The elements that started are those that were to start. -/
theorem Enrolled.map_element? (h : Enrolled t log) :
    (nodesOf .elementStarted log).map t.element? =
      ((log.filterMap Notice.arrival?).filterMap startOf).map some := by
  have hstarts : (nodesOf .elementStarted log).filterMap t.element? =
      (log.filterMap Notice.arrival?).filterMap startOf := by
    rw [nodesOf, List.filterMap_map, List.filterMap_filter, List.filterMap_filterMap]
    refine List.filterMap_congr fun n hn => ?_
    rcases n with ⟨⟨kind, id⟩, content⟩
    cases kind with
    | textCreated => rfl
    | elementEnded => rfl
    | elementStarted =>
      obtain ⟨e, rfl, he⟩ := h.content _ hn rfl
      exact Tree.element?_eq_some.mpr he
  rw [← hstarts, List.map_filterMap_some_eq_filter_map_isSome, List.filter_eq_self.mpr]
  intro e he
  obtain ⟨id, hid, rfl⟩ := List.mem_map.mp he
  exact Tree.isElement_iff.mpr (h.exists_element hid)

/-- Of the elements in the order of their numbers, those that started come as they started. -/
theorem Enrolled.filter_madeElements (h : Enrolled t log) :
    t.madeElements.filter (· ∈ nodesOf .elementStarted log) = nodesOf .elementStarted log := by
  have hsorted := (t.pairwise_ids.filter t.isElement).filter (· ∈ nodesOf .elementStarted log)
  have hnodup : ∀ {l : List NodeId}, l.Pairwise (·.index < ·.index) → l.Nodup := fun hl =>
    hl.imp fun hlt heq => Nat.ne_of_lt hlt (congrArg NodeId.index heq)
  refine List.Perm.eq_of_pairwise (fun a b _ _ hab hba => absurd hab (Nat.lt_asymm hba)) hsorted
    h.ordered ((List.perm_ext_iff_of_nodup (hnodup hsorted) (hnodup h.ordered)).mpr fun id => ?_)
  simp only [List.mem_filter, Tree.mem_ids, decide_eq_true_eq]
  exact ⟨fun hid => hid.2, fun hid => ⟨⟨h.known hid, Tree.isElement_iff.mpr (h.exists_element hid)⟩, hid⟩⟩

/-- The element of a start tag of a document. -/
theorem startOf_arrival? {input : String} {tokens : List Token} (h : tokensOf input = .ok tokens)
    {token : Token} (hmem : token ∈ tokens) : token.arrival?.bind startOf = token.element? := by
  cases token with
  | text s => rfl
  | endTag tag => rfl
  | startTag tag attributes =>
    obtain ⟨-, htokens⟩ := tokensOf_eq_ok h
    obtain ⟨phase, horderly⟩ := orderly_of_read input
    rw [htokens] at horderly
    obtain ⟨before, after, hturn⟩ := horderly.exists_turn hmem
    cases hturn with
    | startTag hne hcapital hnames =>
      have htag : tag.toUpper = tag := (Element.named_ofSource hne hcapital hnames).2
      have helement : Element.ofSource tag attributes = ⟨tag, ⟨Attributes.reduced attributes⟩⟩ := by
        rw [← Attributes.entries_ofList, Element.ofSource, Element.ofTag, htag]
      exact congrArg some helement

end Elements

/-- **Nothing is lost.** All nodes of a document stand in it. Its texts, in the order of their
numbers, are those of the tokens; and so are its elements, but for wrappers without attributes,
each with its attributes reduced to one for each name. Void elements hold nothing. -/
theorem nodes_of_tokens {p p' : Parser} {input : String} {t : Tree}
    (hparse : p.parse input = (.ok t, p')) :
    ∃ tokens, tokensOf input = .ok tokens ∧
      (∀ id, id.index < t.size → id ∈ t.walk Tree.root) ∧
      t.madeTexts.filterMap t.text? = tokens.filterMap Token.text? ∧
      t.madeElements.filter (· ∈ sourceElements input) = sourceElements input ∧
      (sourceElements input).map t.element? = (tokens.filterMap Token.element?).map some ∧
      (∀ id ∈ t.madeElements, id ∉ sourceElements input →
        ∃ tag, (tag = "HTML" ∨ tag = "BODY") ∧ t.element? id = some ⟨tag, {}⟩) ∧
      ∀ id e, t.element? id = some e → isVoid e.tag = true → t.children id = [] := by
  obtain ⟨-, htokens⟩ := tree_of_parse hparse
  obtain ⟨htidy, hhoused, -⟩ := tidy_of_parse hparse
  have hroot := Tree.lt_size_of_content? hhoused.document
  have hfaithful := faithful_of_parse hparse
  have henrolled := enrolled_of_parse hparse
  refine ⟨_, htokens, fun id hid => ?_, ?_, henrolled.filter_madeElements, ?_, fun id hid hsilent => ?_,
    htidy.void⟩
  · exact (htidy.linked.mem_walk hroot).mpr (hfaithful.whole.covers htidy.linked hid)
  · rw [hfaithful.made, List.filterMap_map]
    rfl
  · rw [sourceElements, henrolled.map_element?, arrivals_sourceLog hparse, List.filterMap_filterMap,
      List.filterMap_map]
    refine congrArg _ (List.filterMap_congr fun token htoken => ?_)
    exact startOf_arrival? htokens (List.mem_map_of_mem htoken)
  · obtain ⟨⟨tag, as⟩, he⟩ := Tree.isElement_iff.mp (List.mem_filter.mp hid).2
    obtain ⟨htag, rfl⟩ := henrolled.wrappers id _ he hsilent
    exact ⟨tag, htag, Tree.element?_eq_some.mpr he⟩

/-- The paragraph is made before the wrappers that it stands in, and of the two values the later one
stays, where the earlier one was. -/
theorem nodes_of_tokens_wrapped : ∃ t p', ({} : Parser).parse "<p a=1 b a=2>x" = (.ok t, p') ∧
    t.madeElements = [⟨1⟩, ⟨2⟩, ⟨3⟩] ∧ sourceElements "<p a=1 b a=2>x" = [⟨1⟩] ∧
    (sourceElements "<p a=1 b a=2>x").map t.element? =
      [some ⟨"P", ⟨[⟨"a", "2"⟩, ⟨"b", ""⟩]⟩⟩] ∧
    t.madeTexts.filterMap t.text? = ["x"] := by
  have hfound : (({} : Parser).parse "<p a=1 b a=2>x").1.toOption.map Tree.madeElements =
      some [⟨1⟩, ⟨2⟩, ⟨3⟩] := by
    decide +kernel
  have hsource : sourceElements "<p a=1 b a=2>x" = [⟨1⟩] := by decide +kernel
  have hread : tokensOf "<p a=1 b a=2>x" =
      .ok [.startTag "P" [⟨"a", "1"⟩, ⟨"b", ""⟩, ⟨"a", "2"⟩], .text "x"] := by
    decide +kernel
  obtain ⟨t, p', hparse, hmade⟩ := exists_tree hfound
  obtain ⟨tokens, htokens, -, htexts, -, helements, -, -⟩ := nodes_of_tokens hparse
  rw [hread, Except.ok.injEq] at htokens
  rw [← htokens] at htexts helements
  refine ⟨t, p', hparse, hmade, hsource, helements.trans ?_, htexts.trans rfl⟩
  decide

end Markup

end Hypertext
