import GraphPlacement.Text.Blank

/-!
# Fields of a record

**Fields.** The fields of a text are its maximal runs of characters that are not separators, from left
to right.  Separators before the first and after the last field count for nothing, so a text has no
field exactly when all its characters are separators.  A record is separated by blank characters; the
name of a file is separated by slashes.

The scan is stated over lists of characters, with the field that is being read kept in reverse.
-/

namespace GraphPlacement.Text

/-- Closes the field that is being read: an empty one is no field. -/
def closeField (reading : List Char) (later : List (List Char)) : List (List Char) :=
  match reading with
  | [] => later
  | _ => reading.reverse :: later

/-- The fields of `cs`, the first of them continuing `reading` (kept in reverse). -/
def fieldsFrom (separates : Char → Bool) (reading : List Char) : List Char → List (List Char)
  | [] => closeField reading []
  | c :: cs =>
    if separates c then closeField reading (fieldsFrom separates [] cs)
    else fieldsFrom separates (c :: reading) cs

/-- The fields of a text between separators. -/
def fieldsBetween (separates : Char → Bool) (text : String) : List String :=
  (fieldsFrom separates [] text.toList).map String.ofList

def fields (text : String) : List String := fieldsBetween isBlank text

@[simp] theorem closeField_nil (later : List (List Char)) : closeField [] later = later := rfl

@[simp] theorem closeField_cons (c : Char) (cs : List Char) (later : List (List Char)) :
    closeField (c :: cs) later = (c :: cs).reverse :: later := rfl

@[simp] theorem fieldsFrom_nil (separates : Char → Bool) (reading : List Char) :
    fieldsFrom separates reading [] = closeField reading [] := rfl

/-- A separator closes the field that is being read. -/
theorem fieldsFrom_separator {separates : Char → Bool} {c : Char} (h : separates c = true)
    (reading cs : List Char) :
    fieldsFrom separates reading (c :: cs) = closeField reading (fieldsFrom separates [] cs) := by
  simp [fieldsFrom, h]

/-- Any other character continues it. -/
theorem fieldsFrom_solid {separates : Char → Bool} {c : Char} (h : separates c = false)
    (reading cs : List Char) :
    fieldsFrom separates reading (c :: cs) = fieldsFrom separates (c :: reading) cs := by
  simp [fieldsFrom, h]

end GraphPlacement.Text
