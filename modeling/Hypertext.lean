import Hypertext.Automaton.Script
import Hypertext.Pipeline.Probe
import Hypertext.Main
import Hypertext.Proofs.Tree.Insertions
import Hypertext.Proofs.Tree.Classes
import Hypertext.Proofs.Selector.Meaning
import Hypertext.Proofs.Selector.Grammar
import Hypertext.Proofs.Selector.Streaming
import Hypertext.Proofs.Selector.Climbing
import Hypertext.Proofs.Markup.Events
import Hypertext.Proofs.Markup.Pieces
import Hypertext.Proofs.Markup.Values
import Hypertext.Proofs.Markup.Rendering
import Hypertext.Proofs.Markup.Refusals
import Hypertext.Proofs.Markup.TextOrder
import Hypertext.Proofs.Markup.Detaching
import Hypertext.Proofs.Pipeline.Crossing
import Hypertext.Proofs.Pipeline.Covering
import Hypertext.Proofs.Pipeline.Bare
import Hypertext.Proofs.Pipeline.Independence
import Hypertext.Proofs.Markup.EventOrder
import Hypertext.Proofs.Markup.Enrolled
import Hypertext.Proofs.Markup.Contents
import Hypertext.Proofs.Markup.Dressing
import Hypertext.Proofs.Pipeline.Rewriting
import Hypertext.Proofs.Pipeline.Repeating
import Hypertext.Proofs.Automaton.Runs
import Hypertext.Proofs.Pipeline.FirstFailure
import Hypertext.Proofs.Markup.Closing
import Hypertext.Proofs.Markup.StartTags
import Hypertext.Proofs.Markup.EndTags
import Hypertext.Proofs.Command.Matching
import Hypertext.Proofs.Markup.Stack
import Hypertext.Proofs.Selector.Partition
