import FiniteAutomata.Text.Extending
import FiniteAutomata.Text.Ignorable
import FiniteAutomata.Text.Unprintable

/-!
# Text/Invisible — characters without a shape of their own

A character has no shape of its own if it is not printed, is drawn on the character before it, or
is passed over.
-/

namespace FiniteAutomata.Text

/-- Whether a character has no shape of its own. -/
def isInvisible (c : Char) : Bool :=
  unprintable.contains c || extending.contains c || ignorable.contains c

end FiniteAutomata.Text
