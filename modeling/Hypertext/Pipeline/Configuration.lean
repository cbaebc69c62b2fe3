/-
Pipelines read from their configuration: a JSON list of entries, each naming a
processor with its parameters. A list that cannot be made out is a mistake in
the configuration; the parameters of each entry are judged only after that, in
order.
-/
import Hypertext.Json.Reading
import Hypertext.Selector.Reading
import Hypertext.Pipeline.Rules

namespace Hypertext.Pipeline

/-! ## Parameters -/

def selector? (j : Json) : Option Selector :=
  match j with
  | .string s => (Selector.parse s).toOption
  | _ => none

/-- One selector, or a list of them. -/
def selectors? : Json → Option (List Selector)
  | .array items => items.mapM selector?
  | j => (selector? j).map ([·])

/-- An attribute by its name alone, or by its name and perhaps its value. -/
def attribute? : Json → Option Attribute
  | .string name => some ⟨name, ""⟩
  | .object members =>
    match Json.member? members "name", Json.member? members "value" with
    | some (.string name), none => some ⟨name, ""⟩
    | some (.string name), some (.string value) => some ⟨name, value⟩
    | _, _ => none
  | _ => none

def attributeAction? (j : Json) : Option AttributeAction :=
  match j.choice? with
  | some "add" => some .add
  | some "delete" => some .delete
  | _ => none

def elementAction? (j : Json) : Option ElementAction :=
  match j.choice? with
  | some "remove" => some .remove
  | some "removeOthers" => some .removeOthers
  | _ => none

def attributeRule? (params : Json) : Option AttributeRule :=
  match params.fields? ["selectors", "action", "attribute"] with
  | some [some selectors, some action, some attr] => do
    return ⟨← selectors? selectors, ← attributeAction? action, ← attribute? attr⟩
  | _ => none

/-- What a rule is confined to: nothing, where the field is missing or null. -/
def within? : Option Json → Option (Option (List Selector))
  | none | some .null => some none
  | some j => (selectors? j).map some

def elementRule? (params : Json) : Option ElementRule :=
  match params.fields? ["selectors", "action", "ifIn"] with
  | some [some selectors, some action, within] => do
    return ⟨← selectors? selectors, ← elementAction? action, ← within? within⟩
  | _ => none

/-! ## Entries -/

structure Entry where
  kind : Kind
  params : Json := .null

def Entry.named (name : String) (params : Json) : Except Error Entry :=
  match Kind.ofName? name with
  | some kind => .ok { kind, params }
  | none => .error (.unknownProcessor name)

def Entry.rule (e : Entry) : Except Error Rule :=
  let rule? :=
    match e.kind with
    | .attribute => (attributeRule? e.params).map Rule.attr
    | .element => (elementRule? e.params).map Rule.element
  match rule? with
  | some rule => .ok rule
  | none => .error (.invalidParams e.kind)

/-- How deep the values of a configuration may nest. -/
def maxDepth : Nat := 127

/-- The entry with these fields, the parameters null where there are none. `depth` is how deep the
fields stand; what is not a field of an entry is not looked at. -/
def Entry.ofFields? (depth : Nat) (processor params : Option Json) : Option Entry := do
  let kind ← Kind.ofName? (← (← processor).choice?)
  let params := params.getD .null
  if params.isSound (maxDepth - depth) then some { kind, params := params.settled } else none

/-- The values of a name, in order. -/
def valuesOf (members : List (String × Json)) (name : String) : List Json :=
  (members.filter (·.1 = name)).map (·.2)

/-- Reads an entry that is itself `depth` deep. No field may be given twice. -/
def Entry.ofJson? (depth : Nat) : Json → Option Entry
  | .object members =>
    match valuesOf members "processor", valuesOf members "params" with
    | [processor], [] => Entry.ofFields? (depth + 1) (some processor) none
    | [processor], [params] => Entry.ofFields? (depth + 1) (some processor) (some params)
    | _, _ => none
  | .array [processor] => Entry.ofFields? (depth + 1) (some processor) none
  | .array [processor, params] => Entry.ofFields? (depth + 1) (some processor) (some params)
  | _ => none

def Entry.read (text : String) : Except Error Entry :=
  match (Json.read? text).bind (Entry.ofJson? 0) with
  | some entry => .ok entry
  | none => .error .config

/-- Reads the list of entries. -/
def readEntries (text : String) : Except Error (List Entry) :=
  match Json.read? text with
  | some (.array items) =>
    match items.mapM (Entry.ofJson? 1) with
    | some entries => .ok entries
    | none => .error .config
  | _ => .error .config

def readRules (text : String) : Except Error (List Rule) := do
  (← readEntries text).mapM Entry.rule

/-- The pipeline of a configuration. -/
def read {ω : Type} (text : String) : Except Error (Pipeline Focus ω) :=
  (readRules text).map ofRules

end Hypertext.Pipeline
