/-
JSON values as they stand in a text: numbers as decimals, in range or not, objects
with all their members in order. Where a name is repeated the last member
counts, and `settled` leaves only that.
-/
import Hypertext.Json.Decimal

namespace Hypertext

inductive Json where
  | null
  | bool (b : Bool)
  | number (d : Decimal)
  | string (s : String)
  | array (items : List Json)
  | object (members : List (String × Json))
  /-- A string, or an object with a name, that has half a surrogate pair and so is no text. -/
  | illegible
  deriving Inhabited

namespace Json

def member? (members : List (String × Json)) (name : String) : Option Json :=
  (members.find? (·.1 = name)).map (·.2)

/-- A record by its fields, from an object, which may have members besides, or from an array,
which may end early. -/
def fields? (names : List String) : Json → Option (List (Option Json))
  | .object members => some (names.map (member? members))
  | .array items =>
    if items.length ≤ names.length then some (names.mapIdx fun i _ => items[i]?) else none
  | _ => none

/-- A choice by its name, from a string, or from an object with that name alone, and null. -/
def choice? : Json → Option String
  | .string s => some s
  | .object [(name, .null)] => some name
  | _ => none

mutual

/-- The value with every name of an object given once. -/
def settled : Json → Json
  | .array items => .array (settledAll items)
  | .object members => .object (settledMembers members)
  | j => j

def settledAll : List Json → List Json
  | [] => []
  | j :: rest => j.settled :: settledAll rest

def settledMembers : List (String × Json) → List (String × Json)
  | [] => []
  | (name, j) :: rest =>
    if rest.any (·.1 = name) then settledMembers rest
    else (name, j.settled) :: settledMembers rest

end

mutual

/-- Whether arrays and objects are nested at most `depth` deep, numbers are finite and all strings
are legible. -/
def isSound (depth : Nat) : Json → Bool
  | .null | .bool _ | .string _ => true
  | .number d => d.isFinite
  | .illegible => false
  | .array items => 0 < depth && allSound (depth - 1) items
  | .object members => 0 < depth && allSoundMembers (depth - 1) members

def allSound (depth : Nat) : List Json → Bool
  | [] => true
  | j :: rest => j.isSound depth && allSound depth rest

def allSoundMembers (depth : Nat) : List (String × Json) → Bool
  | [] => true
  | (_, j) :: rest => j.isSound depth && allSoundMembers depth rest

end

end Json

end Hypertext
