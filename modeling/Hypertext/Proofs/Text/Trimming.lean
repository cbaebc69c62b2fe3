/-
What trimming leaves: a text that neither begins nor ends with white space, and
is no longer than the one it was trimmed from.
-/
import Hypertext.Text.Ascii
import Hypertext.Text.Space

namespace Hypertext

end Hypertext
