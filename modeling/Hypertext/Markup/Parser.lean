/-
Documents read into trees. A parser goes from document to document; of the
last one it keeps where its tokenizer stopped and the issues, and both are set
back before the next.
-/
import Hypertext.Markup.Growth
import Hypertext.Markup.Located

namespace Hypertext.Markup

structure Parser where
  position : Position := tokenizer.start
  issues : List Issue := []

namespace Parser

variable {ω : Type}

def reset (_ : Parser) : Parser :=
  {}

/-- Reads a document while an observer follows. A document that breaks off has no tree, but its
issues up to there, and what the observer remembers. -/
def parseWith (p : Parser) (observer : Observer ω) (memory : ω) (input : String) :
    Except Failure Tree × ω × Parser :=
  let reading := readFrom p.reset.position 0 input.toList
  let g := reading.tokens.foldl (Growth.take observer) { memory }
  match reading.failure? input.toList with
  | some failure => (.error failure, g.memory, { position := reading.stopped, issues := g.issues })
  | none =>
    let g := g.finish observer input.length
    (.ok g.tree, g.memory, { position := reading.stopped, issues := g.issues })

/-- Reads a document with nobody watching. -/
def parse (p : Parser) (input : String) : Except Failure Tree × Parser :=
  let (result, _, p) := p.parseWith (fun _ s => s) () input
  (result, p)

end Parser

/-- The tree of a document. -/
def parse (input : String) : Except Failure Tree :=
  (({} : Parser).parse input).1

end Hypertext.Markup
