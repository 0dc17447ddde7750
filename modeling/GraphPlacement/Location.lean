import GraphPlacement.Text.Fields

/-!
# Names of files

**Locations.** A location is the place of a file or a folder: a chain of entries that goes down from
the topmost folder, from the working folder, or from a folder above the working folder.  Two names that
lead to one location are names of one file.

**Names.** The name of a file is a way to its location.  It begins at the topmost folder if it begins
with a slash, and at the working folder otherwise.  Its fields between slashes are taken one after the
other: one dot stays, two dots go up, and anything else goes down into the entry of that name.

A way is followed here as if every folder on it were there; `Store.locate` follows it in a store.
-/

namespace GraphPlacement

/-- The folder that a location goes down from. -/
inductive Anchor where
  | topmost
  /-- The folder so many levels above the working folder. -/
  | above (levels : Nat)
deriving DecidableEq, Repr

/-- The place of a file or a folder. -/
structure Location where
  anchor : Anchor := .above 0
  /-- The entries on the way down, the last one first. -/
  entries : List String := []
deriving DecidableEq, Repr

namespace Location

/-- The folder that a location is in; the topmost folder is in itself. -/
def parent : Location → Location
  | ⟨anchor, _ :: entries⟩ => ⟨anchor, entries⟩
  | ⟨.above levels, []⟩ => ⟨.above (levels + 1), []⟩
  | ⟨.topmost, []⟩ => ⟨.topmost, []⟩

def child (l : Location) (entry : String) : Location := { l with entries := entry :: l.entries }

def take (l : Location) (field : String) : Location :=
  if field = "." then l
  else if field = ".." then l.parent
  else l.child field

def start (name : String) : Location :=
  if name.toList.head? = some '/' then ⟨.topmost, []⟩ else {}

/-- The fields of a name, in the order in which they are taken. -/
def fieldsOf (name : String) : List String := Text.fieldsBetween (· == '/') name

/-- Whether a name ends with a slash, and so can be the name of a folder only. -/
def asksFolder (name : String) : Bool := name.toList.getLast? = some '/'

/-- The locations that some fields lead through, the first and the last one included. -/
def through (l : Location) : List String → List Location
  | [] => [l]
  | field :: rest => l :: through (l.take field) rest

/-- The locations that a name leads through. -/
def ofName (name : String) : List Location := through (start name) (fieldsOf name)

/-- The shortest name of a location. -/
def name (l : Location) : String :=
  let down := "/".intercalate l.entries.reverse
  match l.anchor with
  | .topmost => "/" ++ down
  | .above levels => String.join (List.replicate levels "../") ++ down

@[simp] theorem parent_child (l : Location) (entry : String) : (l.child entry).parent = l := rfl

end Location

end GraphPlacement
