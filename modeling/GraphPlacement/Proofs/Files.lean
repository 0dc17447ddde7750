import GraphPlacement.Job
import GraphPlacement.Proofs.Steps

/-!
# Files that jobs read and write

**Folders.** A name is followed through folders only, and a job puts no folder anywhere and no file in
the place of one.  So all stores that a job goes through have the same folders (`SameFolders`), and a
name leads to the same location in each of them.

**Apart.** Whether several names lead to different locations can be said once and for all, then, of the
store that a job begins with (`Store.Apart`).  A file keeps its content while others are written.

**Jobs.** What reading, creating and appending come to is said by equations, so that a longer job can be
taken apart with the lemmas on steps.
-/

namespace GraphPlacement

namespace Store

variable {s t u : Store} {l m n : Location} {name : String} {content : ByteArray}

/-! ## Putting files -/

theorem putIn_putIn (l : Location) (first second : Entry) (entries : List (Location × Entry)) :
    putIn l second (putIn l first entries) = putIn l second entries := by
  induction entries with
  | nil => simp [putIn]
  | cons e entries ih =>
      obtain ⟨other, old⟩ := e
      by_cases h : other = l <;> simp [putIn, h, ih]

@[simp] theorem put_put (s : Store) (l : Location) (first second : ByteArray) :
    (s.put l first).put l second = s.put l second := by
  simp [put, putEntry, putIn_putIn]

theorem content?_put_self (h : s.find? l ≠ some .folder) : (s.put l content).content? l = some content := by
  simp [content?, find?_put_self (entries_ne_nil h)]

theorem content?_put_of_ne (h : m ≠ l) : (s.put l content).content? m = s.content? m := by
  simp [content?, find?_put_of_ne h]

/-- Adding to a file that has just been put is putting all of it. -/
theorem append_put (h : s.find? l ≠ some .folder) (bytes : ByteArray) :
    (s.put l content).append l bytes = s.put l (content ++ bytes) := by
  rw [append, content?_put_self h, Option.getD_some, put_put]

theorem not_folder_of_content? (h : s.content? l = some content) : s.find? l ≠ some .folder := by
  intro hfolder
  simp [content?, hfolder] at h

theorem content?_append_self (h : s.content? l = some content) (bytes : ByteArray) :
    (s.append l bytes).content? l = some (content ++ bytes) := by
  rw [append, content?_put_self (not_folder_of_content? h), h, Option.getD_some]

theorem content?_append_of_ne (h : m ≠ l) (bytes : ByteArray) :
    (s.append l bytes).content? m = s.content? m := content?_put_of_ne h

/-! ## The same folders -/

/-- Whether two stores have the same folders. -/
def SameFolders (s t : Store) : Prop := ∀ l, s.find? l = some .folder ↔ t.find? l = some .folder

theorem SameFolders.refl (s : Store) : s.SameFolders s := fun _ => Iff.rfl

theorem SameFolders.symm (h : s.SameFolders t) : t.SameFolders s := fun l => (h l).symm

theorem SameFolders.trans (h : s.SameFolders t) (h' : t.SameFolders u) : s.SameFolders u :=
  fun l => (h l).trans (h' l)

/-- A file in the place of no folder leaves the folders as they are. -/
theorem sameFolders_put (h : s.find? l ≠ some .folder) (content : ByteArray) :
    s.SameFolders (s.put l content) := by
  intro m
  by_cases hm : m = l
  · subst hm
    rw [find?_put_self (entries_ne_nil h)]
    simp [h]
  · rw [find?_put_of_ne hm]

theorem sameFolders_append (h : s.content? l = some content) (bytes : ByteArray) :
    s.SameFolders (s.append l bytes) := sameFolders_put (not_folder_of_content? h) _

theorem take_eq_ok {field : String} : s.take l field = .ok n ↔
    s.find? l = some .folder ∧ ¬entryLimit < field.utf8ByteSize ∧ n = l.take field := by
  unfold take
  cases s.find? l with
  | none => simp
  | some entry =>
      cases entry with
      | file _ => simp
      | folder =>
          by_cases hlong : entryLimit < field.utf8ByteSize <;> simp [hlong, eq_comm]

/-- Names lead through stores with the same folders in the same way. -/
theorem SameFolders.follow (h : s.SameFolders t) {fields : List String}
    (hs : s.follow l fields = .ok n) : t.follow l fields = .ok n := by
  induction fields generalizing l with
  | nil => exact hs
  | cons field rest ih =>
      rw [Store.follow] at hs
      cases htake : s.take l field with
      | error cause =>
          rw [htake] at hs
          cases hs
      | ok next =>
          rw [htake] at hs
          obtain ⟨hfolder, hshort, hnext⟩ := take_eq_ok.mp htake
          rw [Store.follow, take_eq_ok.mpr ⟨(h l).mp hfolder, hshort, hnext⟩]
          exact ih hs

theorem locate_eq_ok : s.locate name = .ok l ↔
    ¬name.toList.contains '\x00' ∧ name ≠ "" ∧ ¬nameLimit ≤ name.utf8ByteSize ∧
      s.follow (.start name) (Location.fieldsOf name) = .ok l := by
  unfold Store.locate
  split
  case isTrue hnull => simp only [hnull, not_true_eq_false, false_and, reduceCtorEq]
  case isFalse hnull =>
    split
    case isTrue hempty => simp [hempty]
    case isFalse hempty =>
      split
      case isTrue hlong => simp [hlong]
      case isFalse hlong => exact ⟨fun h => ⟨hnull, hempty, hlong, h⟩, fun h => h.2.2.2⟩

theorem SameFolders.locate (h : s.SameFolders t) : s.locate name = .ok l ↔ t.locate name = .ok l := by
  rw [locate_eq_ok, locate_eq_ok]
  constructor
  · rintro ⟨hnull, hempty, hlong, hfollow⟩
    exact ⟨hnull, hempty, hlong, h.follow hfollow⟩
  · rintro ⟨hnull, hempty, hlong, hfollow⟩
    exact ⟨hnull, hempty, hlong, h.symm.follow hfollow⟩

/-- Whether two names lead to one location. -/
def SameFile (s : Store) (x y : String) : Prop := ∃ l, s.locate x = .ok l ∧ s.locate y = .ok l

instance (s : Store) (x y : String) : Decidable (s.SameFile x y) :=
  decidable_of_iff ((s.locate x).toOption.isSome ∧ (s.locate x).toOption = (s.locate y).toOption) (by
    unfold SameFile
    cases s.locate x <;> cases s.locate y <;> simp [Except.toOption, eq_comm])

/-- Whether no two of some names lead to one location. -/
def Apart (s : Store) (names : List String) : Prop := names.Pairwise fun x y => ¬s.SameFile x y

instance (s : Store) (names : List String) : Decidable (s.Apart names) :=
  inferInstanceAs (Decidable (names.Pairwise fun x y => ¬s.SameFile x y))

/-- Whether a file can be created under each of some names. -/
def CanCreate (s : Store) (names : List String) : Prop := ∀ name ∈ names, (s.destination name).isOk = true

instance (s : Store) (names : List String) : Decidable (s.CanCreate names) :=
  inferInstanceAs (Decidable (∀ name ∈ names, (s.destination name).isOk = true))

theorem CanCreate.exists_destination {names : List String} (h : s.CanCreate names) (hname : name ∈ names) :
    ∃ l, s.destination name = .ok l := by
  have hok := h name hname
  cases hl : s.destination name with
  | ok l => exact ⟨l, rfl⟩
  | error cause =>
      rw [hl] at hok
      cases hok

/-! ## Reading and creating -/

theorem read_eq_ok : s.read name = .ok content ↔
    ∃ l, s.locate name = .ok l ∧ s.content? l = some content ∧ Location.asksFolder name = false := by
  unfold read content?
  cases s.locate name with
  | error cause => simp
  | ok l =>
      simp only [Except.ok.injEq, exists_eq_left']
      split
      case h_1 h => simp [h]
      case h_2 h => simp [h]
      case h_3 other h => cases Location.asksFolder name <;> simp [h]

theorem destination_eq_ok : s.destination name = .ok l ↔
    s.locate name = .ok l ∧ s.find? l ≠ some .folder ∧ Location.asksFolder name = false := by
  unfold destination
  cases s.locate name with
  | error cause => simp
  | ok m =>
      simp only [Except.ok.injEq]
      split
      case h_1 h =>
        simp only [reduceCtorEq, false_iff]
        rintro ⟨rfl, hno, -⟩
        exact hno h
      case h_2 h =>
        cases Location.asksFolder name with
        | true => simp
        | false =>
            simp only [Bool.false_eq_true, if_false, Except.ok.injEq, and_true]
            constructor
            · rintro rfl
              exact ⟨rfl, h⟩
            · exact fun hl => hl.1

/-- Following a name has faults of its own, and none of them is about the content of a file. -/
theorem follow_ne_notText {fields : List String} : s.follow l fields ≠ .error .notText := by
  induction fields generalizing l with
  | nil => simp [follow]
  | cons field rest ih =>
      rw [follow]
      cases htake : s.take l field with
      | ok next => exact ih
      | error cause =>
          unfold take at htake
          split at htake
          · cases htake
            simp
          · cases htake
            simp
          · split at htake <;> cases htake
            simp

theorem destination_ne_notText : s.destination name ≠ .error .notText := by
  unfold destination
  cases hlocate : s.locate name with
  | error cause =>
      unfold locate at hlocate
      rintro ⟨⟩
      split at hlocate
      · cases hlocate
      · split at hlocate
        · cases hlocate
        · split at hlocate
          · cases hlocate
          · exact follow_ne_notText hlocate
  | ok m =>
      simp only
      split
      · simp
      · split <;> simp

theorem SameFolders.destination (h : s.SameFolders t) :
    s.destination name = .ok l ↔ t.destination name = .ok l := by
  rw [destination_eq_ok, destination_eq_ok, h.locate, ne_eq, h l]

/-- A file keeps its content when one is put elsewhere. -/
theorem read_put_of_ne (h : s.find? m ≠ some .folder) (hread : s.read name = .ok content)
    (hne : s.locate name ≠ .ok m) (bytes : ByteArray) : (s.put m bytes).read name = .ok content := by
  obtain ⟨l, hl, hcontent, hasks⟩ := read_eq_ok.mp hread
  have hlm : l ≠ m := by
    rintro rfl
    exact hne hl
  refine read_eq_ok.mpr ⟨l, (sameFolders_put h bytes).locate.mp hl, ?_, hasks⟩
  rw [content?_put_of_ne hlm, hcontent]

theorem read_put_of_not_sameFile {other : String} (hne : ¬s.SameFile name other)
    (h : s.destination other = .ok l) (hread : s.read name = .ok content) (bytes : ByteArray) :
    (s.put l bytes).read name = .ok content := by
  obtain ⟨hother, hno, -⟩ := destination_eq_ok.mp h
  exact read_put_of_ne hno hread (fun hname => hne ⟨l, hname, hother⟩) bytes

/-- A file that has been put at the location of a name is read under the name. -/
theorem read_put_self (h : s.destination name = .ok l) (content : ByteArray) :
    (s.put l content).read name = .ok content := by
  obtain ⟨hl, hno, hasks⟩ := destination_eq_ok.mp h
  exact read_eq_ok.mpr ⟨l, (sameFolders_put hno content).locate.mp hl, content?_put_self hno, hasks⟩

end Store

namespace Job

variable {d e : Desk} {name : String} {l : Location} {content : ByteArray} {a : Assignment}
variable {text : String}

/-! ## What jobs do to files -/

theorem tell_eq_ok {events : List Event} :
    tell events d = .ok () e ↔ e = { d with journal := d.journal ++ events } := by
  simp [tell, eq_comm]

theorem readFile_eq_ok : readFile name d = .ok content e ↔ d.store.read name = .ok content ∧ d = e := by
  simp only [readFile, Step.bind_apply, Step.get_apply]
  rw [Step.ofExcept_eq_ok]
  cases d.store.read name <;> simp

theorem readFile_eq_error {fault : Fault} : readFile name d = .error fault e ↔
    (∃ cause, d.store.read name = .error cause ∧ fault = .unreadable cause) ∧ d = e := by
  simp only [readFile, Step.bind_apply, Step.get_apply]
  rw [Step.ofExcept_eq_error]
  cases d.store.read name <;> simp [eq_comm]

theorem createFile_eq_ok : createFile name d = .ok l e ↔
    d.store.destination name = .ok l ∧ e = { d with store := d.store.put l .empty } := by
  simp only [createFile, Step.bind_apply, Step.get_apply]
  cases d.store.destination name with
  | error cause => simp
  | ok m =>
      constructor
      · intro h
        cases h
        exact ⟨rfl, rfl⟩
      · rintro ⟨hl, rfl⟩
        cases hl
        rfl

theorem createFile_eq_error {fault : Fault} : createFile name d = .error fault e ↔
    (∃ cause, d.store.destination name = .error cause ∧ fault = .unreadable cause) ∧ d = e := by
  simp only [createFile, Step.bind_apply, Step.get_apply]
  cases d.store.destination name with
  | error cause => simp [eq_comm]
  | ok m => simp

theorem appendFile_apply (l : Location) (text : String) (d : Desk) :
    appendFile l text d = .ok () { d with store := d.store.append l text.toUTF8 } := rfl

theorem saveNodeMap_eq_ok : saveNodeMap name a d = .ok () e ↔
    ∃ l, d.store.destination name = .ok l ∧
      e = { d with store := d.store.put l (Listing.writeNodeMap a).toUTF8 } := by
  rw [saveNodeMap, Step.bind_eq_ok]
  constructor
  · rintro ⟨l, m, hcreate, happend⟩
    obtain ⟨hl, rfl⟩ := createFile_eq_ok.mp hcreate
    rw [appendFile_apply, Store.append_put (Store.destination_eq_ok.mp hl).2.1,
      ByteArray.empty_append] at happend
    cases happend
    exact ⟨l, hl, rfl⟩
  · rintro ⟨l, hl, rfl⟩
    refine ⟨l, _, createFile_eq_ok.mpr ⟨hl, rfl⟩, ?_⟩
    rw [appendFile_apply, Store.append_put (Store.destination_eq_ok.mp hl).2.1,
      ByteArray.empty_append]

theorem saveNodeMap_eq_error {fault : Fault} : saveNodeMap name a d = .error fault e ↔
    (∃ cause, d.store.destination name = .error cause ∧ fault = .unreadable cause) ∧ d = e := by
  rw [saveNodeMap, Step.bind_eq_error, createFile_eq_error, or_iff_left]
  rintro ⟨l, m, -, happend⟩
  cases happend

theorem loadNodeMap_of_read {nodes : Nat} (h : d.store.read name = .ok content) :
    loadNodeMap name nodes d = Step.ofExcept (Listing.nodeMap content nodes) d := by
  rw [loadNodeMap, Step.bind_apply, readFile_eq_ok.mpr ⟨h, rfl⟩]

end Job

end GraphPlacement
