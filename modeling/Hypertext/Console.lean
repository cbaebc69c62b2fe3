/-
Documents read at a console, which is warned of each oddity as it is met.
-/
import Hypertext.Markup.Aloud
import Hypertext.Pipeline.Basic

namespace Hypertext

open Markup

namespace Console

variable {σ ω : Type}

def parse (c : Console) (p : Parser) (input : String) : Except Failure Tree × Parser × Console :=
  let (result, _, p, c) := p.parseAloud (fun _ s => s) () c input
  (result, p, c)

/-- A document through a pipeline. What was warned of in earlier ones is forgotten first. -/
def process (c : Console) (p : Pipeline σ ω) (memory : ω) (input : String) :
    Except Pipeline.Error String × ω × Pipeline σ ω × Console :=
  let (stages, memory) := Pipeline.resetAll p.stages memory
  let (result, run, parser, c) :=
    p.parser.parseAloud Pipeline.observer { stages, memory } c.forgetWarnings input
  let outcome :=
    match run.failure, result with
    | some e, _ => .error e
    | none, .error failure => .error (.parse failure)
    | none, .ok tree => .ok (Pipeline.rendered tree)
  (outcome, run.memory, { stages := run.stages, parser }, c)

end Console

end Hypertext
