import OnePass.Text

/-!
Markers: a quoted source with a caret under one of its characters.
-/

namespace OnePass

/-- A source and the column its caret stands in, counted in characters from
zero. -/
structure Marker where
  source : String
  column : Nat
  deriving DecidableEq, Repr

namespace Marker

/-- Mark the character that holds byte `loc`, or the end of the source when `loc`
lies past it. -/
def place (source : String) (loc : Nat) : Marker :=
  { source, column := Text.column source.toList loc }

/-- Mark byte `loc`, which has to be the first of a character.  An offset past the
end marks the end. -/
def place? (source : String) (loc : Nat) : Option Marker :=
  let chars := source.toList
  if Text.isBoundary chars (min loc (Text.byteLength chars)) then some (place source loc)
  else none

/-- The source in quotes, and below it the caret.  The caret is one further to the
right than its column because of the opening quote. -/
def render (m : Marker) : String :=
  "'" ++ m.source ++ "'\n" ++ String.ofList (List.replicate (m.column + 1) ' ') ++ "^"

/-- Where the source can be cut, the marker counts the characters before the cut. -/
theorem place?_ofList_append (front back : List Char) :
    place? (String.ofList (front ++ back)) (Text.byteLength front) =
      some { source := String.ofList (front ++ back), column := front.length } := by
  have hle : min (Text.byteLength front) (Text.byteLength (front ++ back)) =
      Text.byteLength front := by
    rw [Text.byteLength_append]
    omega
  simp only [place?, place, String.toList_ofList, hle, Text.isBoundary_append, if_true,
    Text.column_append]

end Marker
end OnePass
