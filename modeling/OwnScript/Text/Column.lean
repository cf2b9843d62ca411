/-!
Columns of text. Listings and statistics line their entries up by padding each one to a
fixed width; an entry that is already wider is kept whole.
-/

namespace OwnScript.Text

/-- Pads on the left, so that the last characters of a column line up. -/
def alignRight (width : Nat) (fill : Char) (text : String) : String :=
  String.ofList (List.replicate (width - text.length) fill) ++ text

/-- Pads on the right with blanks, so that the first characters of a column line up. -/
def alignLeft (width : Nat) (text : String) : String :=
  text ++ String.ofList (List.replicate (width - text.length) ' ')

end OwnScript.Text
