/-
An attribute rule that is asked twice in a row. What it does may decide whether
it matches again, for it can set or delete the very attribute that it looks for,
and all that is below sees the outcome. But where it does match again it finds
its own work done: a value that it has set it sets once more where it is, and of
a name that it has deleted nothing is left, since the names of an element are
different. So an element goes on from the second as it has from the first, and
nothing below can tell them apart.
-/
import Hypertext.Proofs.Pipeline.Rewriting

namespace Hypertext

namespace Pipeline

open Markup Selector

section Repeating

variable {r : AttributeRule} {rules before after : List AttributeRule} {t u : Tree} {id : NodeId}
  {as : Attributes}

namespace AttributeRule

theorem nodup_edit (r : AttributeRule) (h : (as.entries.map (·.name)).Nodup) :
    ((r.edit as).entries.map (·.name)).Nodup := by
  rw [edit]
  cases r.action with
  | add => exact Attributes.nodup_insert _ h
  | delete => exact Attributes.nodup_erase _ h

theorem edit_edit (r : AttributeRule) (h : (as.entries.map (·.name)).Nodup) :
    r.edit (r.edit as) = r.edit as := by
  simp only [edit]
  cases r.action with
  | add => exact Attributes.insert_insert as r.attr
  | delete => exact Attributes.erase_erase h

theorem nodup_rewrite (r : AttributeRule) (t : Tree) (id : NodeId)
    (h : (as.entries.map (·.name)).Nodup) : ((r.rewrite t id as).entries.map (·.name)).Nodup := by
  rw [rewrite]
  split
  · exact r.nodup_edit h
  · exact h

/-- Whether it matches again or not, the rule leaves the element as it has left it before. -/
theorem rewrite_rewrite (r : AttributeRule) (t : Tree) (id : NodeId)
    (h : (as.entries.map (·.name)).Nodup) :
    r.rewrite t id (r.rewrite t id as) = r.rewrite t id as := by
  by_cases hfirst : ∃ s ∈ r.selectors, s.matches (t.modifyAttributes id fun _ => as) id = .ok true
  · have hedited : r.rewrite t id as = r.edit as := if_pos hfirst
    rw [hedited, rewrite, r.edit_edit h, ite_self]
  · have hleft : r.rewrite t id as = as := if_neg hfirst
    rw [hleft, hleft]

end AttributeRule

theorem nodup_rewriteAll (rules : List AttributeRule) (t : Tree) (id : NodeId)
    (h : (as.entries.map (·.name)).Nodup) :
    ((rewriteAll rules t id as).entries.map (·.name)).Nodup := by
  induction rules generalizing as with
  | nil => exact h
  | cons r rules ih => exact ih (r.nodup_rewrite t id h)

theorem rewriteAll_append (before after : List AttributeRule) (t : Tree) (id : NodeId)
    (as : Attributes) :
    rewriteAll (before ++ after) t id as = rewriteAll after t id (rewriteAll before t id as) :=
  List.foldl_append

/-- The second time makes no difference to the element. -/
theorem rewriteAll_repeat (before after : List AttributeRule) (r : AttributeRule) (t : Tree)
    (id : NodeId) (h : (as.entries.map (·.name)).Nodup) :
    rewriteAll (before ++ r :: r :: after) t id as = rewriteAll (before ++ r :: after) t id as := by
  rw [rewriteAll_append, rewriteAll_append]
  exact congrArg (rewriteAll after t id) (r.rewrite_rewrite t id (nodup_rewriteAll before t id h))

/-- Nor does it to the tree. -/
theorem Rewritten.repeat {sources : List NodeId}
    (h : Rewritten (before ++ r :: after) sources t u)
    (hdistinct : ∀ id e, t.element? id = some e → (e.attributes.entries.map (·.name)).Nodup) :
    Rewritten (before ++ r :: r :: after) sources t u where
  shape := h.shape
  silent := h.silent
  source id hid := by
    rw [h.source id hid]
    refine Option.map_congr fun c hc => ?_
    cases c with
    | element e =>
      have hnodup := hdistinct id e (Tree.element?_eq_some.mpr hc)
      rw [Content.dressed, Content.dressed, rewriteAll_repeat before after r u id hnodup]
    | document | text => rfl

end Repeating

section Pipelines

variable {ω : Type} {p p' : Pipeline Focus ω} {before after : List AttributeRule}
  {r : AttributeRule}

/-- **A second time changes nothing.** Where one rule of a pipeline of attribute rules is put in once
more, right behind itself, the pipeline makes of every document what it made of it before. -/
theorem treeOf_repeated (hp : Staffed ((before ++ r :: after).map Rule.attr) p.stages)
    (hp' : Staffed ((before ++ r :: r :: after).map Rule.attr) p'.stages)
    (hrules : ∀ s ∈ before ++ r :: after, s.Supported) {q q' : Parser} {input : String} {t : Tree}
    (hparse : q.parse input = (.ok t, q')) (memory memory' : ω) :
    ∃ u, (p.treeOf memory input).1 = .ok u ∧ (p'.treeOf memory' input).1 = .ok u := by
  have hrules' : ∀ s ∈ before ++ r :: r :: after, s.Supported := fun s hs =>
    hrules s (by simpa using hs)
  have htidy := (tidy_of_parse hparse).1
  obtain ⟨u, htree, hu⟩ := exists_rewritten hp hrules hparse memory
  obtain ⟨v, htree', hv⟩ := exists_rewritten hp' hrules' hparse memory'
  have hsame : v = u :=
    hv.unique (hu.repeat fun id e he => (htidy.element id e he).distinct) htidy.linked
  exact ⟨u, htree, hsame ▸ htree'⟩

/-- Here the rule deletes what it looks for, on the paragraph and above the element in it. -/
theorem treeOf_repeated_deleting :
    let r : AttributeRule :=
      ⟨[⟨[.hasAttribute (.present "a")], [], "[a]"⟩,
        ⟨[.tag "I"], [(.descendant, [.hasAttribute (.present "a")])], "[a] i"⟩], .delete, ⟨"a", ""⟩⟩
    let once : Pipeline Focus Unit := ofRules [.attr r]
    let twice : Pipeline Focus Unit := ofRules [.attr r, .attr r]
    ∃ u, (once.treeOf () "<p a b><i>").1 = .ok u ∧ (twice.treeOf () "<p a b><i>").1 = .ok u ∧
      rendered u = "<html><body><p b=\"\"><i></i></p></body></html>" := by
  intro r once twice
  have hfound : (({} : Parser).parse "<p a b><i>").1.toOption.map (fun _ => ()) = some () := by
    decide +kernel
  have hrendered : (once.treeOf () "<p a b><i>").1.toOption.map rendered =
      some "<html><body><p b=\"\"><i></i></p></body></html>" := by
    decide +kernel
  obtain ⟨t, q', hparse, -⟩ := exists_tree hfound
  have hrules : ∀ s ∈ ([] ++ r :: [] : List AttributeRule), s.Supported := by
    simp [r, AttributeRule.Supported, Selector.Supported, Simple.Supported]
  obtain ⟨u, htree, htree'⟩ := treeOf_repeated
    (staffed_ofRules (([] ++ r :: [] : List AttributeRule).map Rule.attr))
    (staffed_ofRules (([] ++ r :: r :: [] : List AttributeRule).map Rule.attr)) hrules hparse () ()
  have honce : (once.treeOf () "<p a b><i>").1 = .ok u := htree
  rw [honce] at hrendered
  exact ⟨u, htree, htree', Option.some.inj hrendered⟩

end Pipelines

end Pipeline

end Hypertext
