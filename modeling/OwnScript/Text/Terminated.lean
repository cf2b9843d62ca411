/-!
Terminated text. A NUL character ends a text that is handed over without its length, so that
whatever follows it is lost.
-/

namespace OwnScript.Text

/-- The character that ends a text without a length. -/
def nul : Char := '\x00'

/-- A text up to its first NUL. -/
def untilNul (text : String) : String :=
  String.ofList (text.toList.takeWhile (· != nul))

end OwnScript.Text
