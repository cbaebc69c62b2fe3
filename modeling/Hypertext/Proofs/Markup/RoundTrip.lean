/-
Parsing undoes writing. The two halves meet at the forest below the document:
its markup is cut into its tokens, whatever a text may end in, and its tokens
grow it again.
-/
import Hypertext.Proofs.Markup.Growing
import Hypertext.Proofs.Tree.Runs

namespace Hypertext.Markup

open Automaton Buffers Growth

variable {t : Tree}

/-- A growth has its document, and no more, to begin with. -/
theorem Growth.poised_start : Poised ({ memory := () } : Growth Unit) none where
  linked := Tree.linked_empty
  document := rfl
  inner := rfl

/-- Where nothing is open and the document has its root, the end brings nothing. -/
theorem Growth.finish_eq {g : Growth Unit} (hstack : g.stack = [])
    (hroot : g.tree.documentElement?.isSome = true) (index : Nat) :
    g.finish unwatched index = g := by
  obtain ⟨tree, stack, issues, memory⟩ := g
  subst hstack
  have hroot' : tree.documentElement?.isSome = true := hroot
  simp only [Growth.finish, List.foldl_nil, hroot', ↓reduceIte]

/-- What a proper forest with one element at the top is parsed into: a tree of that forest. -/
theorem parse_written {f : Forest} (hf : f.Proper none) (htops : f.tops.length = 1) (p : Parser) :
    ∃ t p', p.parse f.written = (.ok t, p') ∧ p'.issues = [] ∧ t.Linked ∧
      t.content? Tree.root = some .document ∧ t.Holds 0 f (t.children Tree.root) := by
  obtain ⟨q, v, tokens, hread, hpending, htokens⟩ := hf.reads .start (.inl rfl)
  obtain ⟨hrefused, hall⟩ := hread.readFrom 0
  rw [hpending.flush, htokens] at hall
  obtain ⟨t, ids, hfold, hgrown, hholds⟩ := hf.grows { memory := () } _ poised_start
    (fun _ => by simp [Tree.tops, Tree.children_empty, htops]) hall
  have htree : t.tops = f.tops := hgrown.tops_eq Tree.linked_empty hholds
  have hroot : t.documentElement?.isSome = true := by
    rw [Option.isSome_iff_ne_none, ne_eq, Tree.documentElement?_eq_none, htree]
    intro hnil
    rw [hnil] at htops
    cases htops
  have hadded : t.children Tree.root = ids := by
    have hchildren : t.children Tree.root = Tree.empty.children Tree.root ++ ids := hgrown.added
    rw [hchildren, Tree.children_empty, List.nil_append]
  have hparse : p.parse f.written =
      (.ok t, { position := (readFrom ⟨.text, {}⟩ 0 f.written.toList).stopped, issues := [] }) := by
    have hreset : p.reset.position = ⟨.text, {}⟩ := rfl
    have hfailure : (readFrom ⟨.text, {}⟩ 0 f.written.toList).failure? f.written.toList = none := by
      rw [Reading.failure?, hrefused, Option.map_none]
    have hfinish := finish_eq (g := { tree := t, memory := () }) rfl hroot f.written.length
    simp only [Parser.parse, Parser.parseWith, hreset, hfailure, hfold, hfinish]
  refine ⟨t, _, hparse, rfl, hgrown.linked, hgrown.content Tree.root (by decide), ?_⟩
  rw [hadded]
  exact hholds.mono (Nat.zero_le _)

/-- **Parsing undoes writing.** The markup of a canonical tree is parsed, whatever the parser has
read before, without an issue, into a tree that is like it node for node: the same kinds of nodes,
tags, attributes in their order, and texts, in the same places. So its markup is the same again. -/
theorem parse_outer (hc : t.Canonical) (p : Parser) :
    ∃ t' p', p.parse (t.outer Tree.root) = (.ok t', p') ∧ p'.issues = [] ∧
      t.Alike t' Tree.root Tree.root ∧ t'.outer Tree.root = t.outer Tree.root := by
  obtain ⟨f, hholds, hproper, htops⟩ := hc.exists_proper
  have houter : t.outer Tree.root = f.written := by
    rw [hc.linked.outer_of_document hc.document, hholds.join_outer hc.linked]
  obtain ⟨t', p', hparse, hissues, hl, hdocument, hholds'⟩ := parse_written hproper htops p
  refine ⟨t', p', by rw [houter, hparse], hissues,
    .intro hc.document hdocument (hholds.alike hholds'), ?_⟩
  rw [hl.outer_of_document hdocument, hholds'.join_outer hl, houter]

/-- A tree whose one value is in double quotes, and whose text ends in half a tag. -/
def sample : Tree :=
  ⟨#[{ content := .document, children := [⟨1⟩] },
    { content := .element { tag := "HTML", attributes := ⟨[⟨"title", "say \"hi\""⟩]⟩ },
      parent := some ⟨0⟩, children := [⟨2⟩] },
    { content := .text "a </b", parent := some ⟨1⟩ }]⟩

theorem linked_sample : sample.Linked := by
  have hmade : sample = Tree.empty.mutateAll
      [.create (.element { tag := "HTML", attributes := ⟨[⟨"title", "say \"hi\""⟩]⟩ }),
        .append Tree.root ⟨1⟩, .createText "a </b", .append ⟨1⟩ ⟨2⟩] := by
    decide +kernel
  rw [hmade]
  exact Tree.linked_empty.mutateAll _

theorem element?_sample {id : NodeId} {e : Element} (h : sample.element? id = some e) :
    id = ⟨1⟩ ∧ e = { tag := "HTML", attributes := ⟨[⟨"title", "say \"hi\""⟩]⟩ } := by
  obtain ⟨_ | _ | _ | i⟩ := id <;>
    simp [sample, Tree.element?, Tree.content?, Tree.node?] at h
  exact ⟨rfl, h.symm⟩

theorem text?_sample {id : NodeId} {s : String} (h : sample.text? id = some s) :
    id = ⟨2⟩ ∧ s = "a </b" := by
  obtain ⟨_ | _ | _ | i⟩ := id <;>
    simp [sample, Tree.text?, Tree.content?, Tree.node?] at h
  exact ⟨rfl, h.symm⟩

theorem children_sample (id : NodeId) : sample.children id = [] ∨ ∃ child, sample.children id = [child] := by
  obtain ⟨_ | _ | _ | i⟩ := id
  · exact .inr ⟨⟨1⟩, rfl⟩
  · exact .inr ⟨⟨2⟩, rfl⟩
  · exact .inl rfl
  · exact .inl (Tree.children_eq_nil_of_size_le (by simp [sample, Tree.size]))

theorem plain_sample : Plain "a </b".toList where
  start c hc hpart := by
    have hmem : c ∈ "a </b".toList := hpart.subset (by simp)
    simp only [String.reduceToList, List.mem_cons, List.not_mem_nil, or_false] at hmem
    rcases hmem with rfl | rfl | rfl | rfl | rfl
    · exact absurd hpart (by decide)
    · exact absurd hc (by decide)
    · exact absurd hc (by decide)
    · exact absurd hc (by decide)
    · exact absurd hpart (by decide)
  stop name _ hpart := by
    have hmem : '>' ∈ "a </b".toList := hpart.subset (by simp)
    exact absurd hmem (by decide)

theorem canonical_sample : sample.Canonical where
  linked := linked_sample
  document := rfl
  html := ⟨[], ⟨1⟩, [], rfl, by simp, rfl⟩
  element id e _ he := by
    obtain ⟨-, rfl⟩ := element?_sample he
    have htag : "HTML".toList.all isCapital = true := by decide
    have hname : "itle".toList.all isNameChar = true := by decide
    refine ⟨by decide, List.all_eq_true.mp htag, ?_, by decide⟩
    intro a ha
    rw [List.mem_singleton.mp ha]
    exact ⟨⟨'t', "itle".toList, by decide, by decide, List.all_eq_true.mp hname⟩, by decide⟩
  text id s _ hs := by
    obtain ⟨-, rfl⟩ := text?_sample hs
    decide
  apart id _ := by
    rcases children_sample id with h | ⟨child, h⟩ <;> rw [h] <;> simp
  void id e _ he hvoid := by
    obtain ⟨-, rfl⟩ := element?_sample he
    exact absurd hvoid (by decide +kernel)
  sections id child tag _ htag hchild hchildtag := by
    obtain ⟨e, he, -⟩ := Option.map_eq_some_iff.mp htag
    obtain ⟨e', he', -⟩ := Option.map_eq_some_iff.mp hchildtag
    obtain ⟨rfl, -⟩ := element?_sample he
    obtain ⟨rfl, -⟩ := element?_sample he'
    exact absurd hchild (by decide)
  raw id r _ hraw := by
    obtain ⟨tag, htag, hr⟩ := Option.bind_eq_some_iff.mp hraw
    obtain ⟨e, he, rfl⟩ := Option.map_eq_some_iff.mp htag
    obtain ⟨-, rfl⟩ := element?_sample he
    have hnone : RawText.ofTag? "HTML" = none := by decide +kernel
    exact absurd hr (by simp [hnone])
  plain id child s _ _ _ hs := by
    obtain ⟨-, rfl⟩ := text?_sample hs
    exact plain_sample

theorem parse_outer_sample : sample.Canonical ∧
    ∃ t' p', ({} : Parser).parse "<html title='say \"hi\"'>a </b</html>" = (.ok t', p') ∧
      p'.issues = [] ∧ sample.Alike t' Tree.root Tree.root ∧
      t'.outer Tree.root = "<html title='say \"hi\"'>a </b</html>" := by
  have houter : sample.outer Tree.root = "<html title='say \"hi\"'>a </b</html>" := by
    decide +kernel
  refine ⟨canonical_sample, ?_⟩
  rw [← houter]
  exact parse_outer canonical_sample {}

end Hypertext.Markup
