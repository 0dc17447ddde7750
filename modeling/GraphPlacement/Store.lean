import GraphPlacement.Fault
import GraphPlacement.Location

/-!
# Files

**Store.** A store says what is at a location: a folder, or a file with its content.  The working folder
and the folders above it are always there.

**Names.** A name is followed to its location field by field, and each field is taken from a folder that
is there.  The location at the end may hold nothing yet: a file can be created there, and creating a
file that exists empties it.

**Views.** `find?` says what a store holds; the other operations are described by what it gives after
them.  Files are only ever added or changed, and folders stay where they are.
-/

namespace GraphPlacement

/-- What is at a location. -/
inductive Entry where
  | folder
  | file (content : ByteArray)

/-- Folders and files by location. -/
structure Store where
  entries : List (Location × Entry) := []

namespace Store

/-- The entry that a list has at a location. -/
def entryIn (l : Location) : List (Location × Entry) → Option Entry
  | [] => none
  | (other, entry) :: entries => if other = l then some entry else entryIn l entries

/-- A list of entries with an entry put at a location, in the old place if there was one. -/
def putIn (l : Location) (entry : Entry) : List (Location × Entry) → List (Location × Entry)
  | [] => [(l, entry)]
  | (other, old) :: entries =>
    if other = l then (l, entry) :: entries else (other, old) :: putIn l entry entries

def find? (s : Store) (l : Location) : Option Entry :=
  if l.entries = [] then some .folder else entryIn l s.entries

/-- The store with an entry put at a location. -/
def putEntry (s : Store) (l : Location) (entry : Entry) : Store := ⟨putIn l entry s.entries⟩

def put (s : Store) (l : Location) (content : ByteArray) : Store := s.putEntry l (.file content)

/-- The content of the file at a location, if there is a file. -/
def content? (s : Store) (l : Location) : Option ByteArray :=
  match s.find? l with
  | some (.file content) => some content
  | _ => none

/-! ## Following names -/

/-- How many bytes an entry of a folder can be named with. -/
def entryLimit : Nat := 255

/-- How many bytes a whole name has to stay below. -/
def nameLimit : Nat := 4096

/-- Takes one field of a name from what should be a folder. -/
def take (s : Store) (l : Location) (field : String) : Except Unreadable Location :=
  match s.find? l with
  | none => .error .missing
  | some (.file _) => .error .notFolder
  | some .folder => if entryLimit < field.utf8ByteSize then .error .longName else .ok (l.take field)

/-- Takes the fields of a name one after the other. -/
def follow (s : Store) (l : Location) : List String → Except Unreadable Location
  | [] => .ok l
  | field :: rest =>
    match s.take l field with
    | .error cause => .error cause
    | .ok next => s.follow next rest

/-- The location that a name leads to. -/
def locate (s : Store) (name : String) : Except Unreadable Location :=
  if name.toList.contains '\x00' then .error .noName
  else if name = "" then .error .missing
  else if nameLimit ≤ name.utf8ByteSize then .error .longName
  else s.follow (.start name) (Location.fieldsOf name)

/-! ## Working on files -/

/-- The content of the file of a name. -/
def read (s : Store) (name : String) : Except Unreadable ByteArray :=
  match s.locate name with
  | .error cause => .error cause
  | .ok l =>
    match s.find? l with
    | none => .error .missing
    | some .folder => .error .isFolder
    | some (.file content) =>
      if Location.asksFolder name then .error .notFolder else .ok content

/-- The location for a new file of a name, where a file may be but no folder. -/
def destination (s : Store) (name : String) : Except Unreadable Location :=
  match s.locate name with
  | .error cause => .error cause
  | .ok l =>
    match s.find? l with
    | some .folder => .error .isFolder
    | _ => if Location.asksFolder name then .error .isFolder else .ok l

/-- The store with some bytes added at the end of the file at a location. -/
def append (s : Store) (l : Location) (bytes : ByteArray) : Store :=
  s.put l ((s.content? l).getD .empty ++ bytes)

/-- A store of some files, with the folders that their names lead through. -/
def ofFiles (files : List (String × ByteArray)) : Store :=
  files.foldl (fun s (name, content) =>
    match (Location.ofName name).reverse with
    | [] => s
    | l :: folders => (folders.foldl (·.putEntry · .folder) s).put l content) {}

/-- The files with their locations. -/
def files (s : Store) : List (Location × ByteArray) :=
  s.entries.filterMap fun (l, entry) =>
    match entry with
    | .folder => none
    | .file content => some (l, content)

/-- The files in the working folder and the folders below it, by name. -/
def workingFiles (s : Store) : List (String × ByteArray) :=
  (s.files.filter (·.1.anchor = .above 0)).map fun (l, content) => (l.name, content)

/-! ## What a store holds after a change -/

theorem entryIn_putIn_self (l : Location) (entry : Entry) (entries : List (Location × Entry)) :
    entryIn l (putIn l entry entries) = some entry := by
  induction entries with
  | nil => simp [putIn, entryIn]
  | cons e entries ih =>
    obtain ⟨other, old⟩ := e
    by_cases h : other = l <;> simp [putIn, entryIn, h, ih]

theorem entryIn_putIn_of_ne {l other : Location} (h : other ≠ l) (entry : Entry)
    (entries : List (Location × Entry)) :
    entryIn other (putIn l entry entries) = entryIn other entries := by
  induction entries with
  | nil => simp [putIn, entryIn, h.symm]
  | cons e entries ih =>
    obtain ⟨third, old⟩ := e
    by_cases ht : third = l
    · subst ht
      simp [putIn, entryIn, h.symm]
    · by_cases ho : third = other <;> simp [putIn, entryIn, ht, ho, ih, h]

theorem find?_put_self {l : Location} (h : l.entries ≠ []) (s : Store) (content : ByteArray) :
    (s.put l content).find? l = some (.file content) := by
  simp [find?, put, putEntry, h, entryIn_putIn_self]

theorem find?_put_of_ne {l other : Location} (h : other ≠ l) (s : Store) (content : ByteArray) :
    (s.put l content).find? other = s.find? other := by
  simp [find?, put, putEntry, entryIn_putIn_of_ne h]

/-- A location without a folder is below some folder. -/
theorem entries_ne_nil {s : Store} {l : Location} (h : s.find? l ≠ some .folder) :
    l.entries ≠ [] := by
  intro hl
  simp [find?, hl] at h

end Store

end GraphPlacement
