/-
The class words of an element are a view of its `class` attribute: every look
reads the attribute anew, and every change writes the words back, separated
by single spaces. A word counts once, at its first place.
-/
import Hypertext.Text.Ascii
import Hypertext.Tree.Attributes

namespace Hypertext

/-- The distinct words of a `class` value, in order of first occurrence. -/
def classWords (value : String) : List String :=
  ((words value.toList).map String.ofList).eraseDups

namespace Attributes

def classes (as : Attributes) : List String :=
  classWords ((as.get? "class").getD "")

def setClasses (as : Attributes) (ws : List String) : Attributes :=
  as.set "class" (" ".intercalate ws)

/-- Appends each word that is not there yet. -/
def addClasses (as : Attributes) (ws : List String) : Attributes :=
  as.setClasses (ws.foldl (fun known w => if w ∈ known then known else known ++ [w]) as.classes)

def removeClasses (as : Attributes) (ws : List String) : Attributes :=
  as.setClasses (as.classes.filter (· ∉ ws))

/-- Puts `new` in the place of `old`; where `new` is among the words already, `old` is only taken
out. Without `old` nothing changes, and the answer is `none`. -/
def replaceClass? (as : Attributes) (old new : String) : Option Attributes :=
  let ws := as.classes
  if old ∈ ws then
    some (as.setClasses (if new ∈ ws then ws.erase old else ws.replace old new))
  else none

end Attributes

end Hypertext
