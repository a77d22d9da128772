/-!
# Columns

Text is filled up with spaces to the width of its column, counted in characters. Longer text is not
cut.
-/

namespace WordC.Text

def padRight (width : Nat) (text : String) : String :=
  text ++ String.ofList (List.replicate (width - text.length) ' ')

def padLeft (width : Nat) (text : String) : String :=
  String.ofList (List.replicate (width - text.length) ' ') ++ text

end WordC.Text
