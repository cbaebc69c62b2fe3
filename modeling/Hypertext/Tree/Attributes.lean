/-
The attributes of an element: a finite map from names to values that keeps
the order in which its names were first set. Names are compared exactly.
-/
namespace Hypertext

structure Attribute where
  name : String
  value : String
  deriving DecidableEq, Repr

structure Attributes where
  entries : List Attribute := []
  deriving DecidableEq, Repr

namespace Attributes

def size (as : Attributes) : Nat :=
  as.entries.length

def find? (as : Attributes) (name : String) : Option Attribute :=
  as.entries.find? (·.name = name)

def get? (as : Attributes) (name : String) : Option String :=
  (as.find? name).map (·.value)

def contains (as : Attributes) (name : String) : Bool :=
  (as.find? name).isSome

/-- The attribute at a position of the order. -/
def at? (as : Attributes) (position : Nat) : Option Attribute :=
  as.entries[position]?

/-- The first entry of the same name gives way to `a`; a new name goes last. -/
def put (a : Attribute) : List Attribute → List Attribute
  | [] => [a]
  | b :: bs => if b.name = a.name then a :: bs else b :: put a bs

def insert (as : Attributes) (a : Attribute) : Attributes :=
  ⟨put a as.entries⟩

def set (as : Attributes) (name value : String) : Attributes :=
  as.insert ⟨name, value⟩

def erase (as : Attributes) (name : String) : Attributes :=
  ⟨as.entries.eraseP (·.name = name)⟩

def ofList (entries : List Attribute) : Attributes :=
  entries.foldl insert {}

/-- Puts `a` in, and gives the attribute that it takes the place of. -/
def exchange (as : Attributes) (a : Attribute) : Option Attribute × Attributes :=
  match as.entries.findIdx? (·.name = a.name) with
  | some place => (as.entries[place]?, ⟨as.entries.set place a⟩)
  | none => (none, ⟨as.entries ++ [a]⟩)

/-- Takes the attribute of a name out, and gives it. -/
def withdraw (as : Attributes) (name : String) : Option Attribute × Attributes :=
  match as.entries.findIdx? (·.name = name) with
  | some place => (as.entries[place]?, ⟨as.entries.eraseIdx place⟩)
  | none => (none, as)

theorem find?_put (a : Attribute) (l : List Attribute) (name : String) :
    (put a l).find? (·.name = name) =
      if a.name = name then some a else l.find? (·.name = name) := by
  induction l with
  | nil => by_cases h : a.name = name <;> simp [put, h]
  | cons b bs ih =>
    by_cases hb : b.name = a.name
    · by_cases h : a.name = name <;> simp [put, hb, h]
    · by_cases h : a.name = name
      · have : b.name ≠ name := fun e => hb (e.trans h.symm)
        simp_all [put]
      · by_cases hn : b.name = name <;> simp_all [put]

/-- After an insertion the name has its new attribute, and every other name what it had. -/
theorem find?_insert (as : Attributes) (a : Attribute) (name : String) :
    (as.insert a).find? name = if a.name = name then some a else as.find? name :=
  find?_put a as.entries name

end Attributes

end Hypertext
