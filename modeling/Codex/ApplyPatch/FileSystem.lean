import Codex.ApplyPatch.Delta

/-!
# Filesystems that may fail

The functions of `apply_patch` reach the disk through the trait
`ExecutorFileSystem`.  Its text operations are modelled here on a world of any
type, of which only the map `files` of texts is known, together with what each
operation does to that map when it succeeds and what it may do when it fails:

* a failed write may leave anything at its own path, and touches no other one;
* a failed removal may or may not have removed the file;
* reading and looking at metadata never change the map, and neither does making
  a directory, since directories hold no text.

Nothing is assumed about when an operation fails or about the metadata it
reports, so a property of every such filesystem is one of every run.

## What is left out

The options and the sandbox context that are passed along with every call.
-/

namespace Codex.ApplyPatch

/-- `io::ErrorKind`, as far as the code tells the kinds apart. -/
inductive ErrorKind where
  | notFound
  | invalidInput
  | other
  deriving DecidableEq, Repr

structure IoError where
  kind : ErrorKind
  message : Str
  deriving DecidableEq, Repr

structure FileMetadata where
  isDirectory : Bool
  isFile : Bool
  isSymlink : Bool
  deriving DecidableEq, Repr

structure ExecutorFileSystem (Path World : Type) [DecidableEq Path] where
  /-- The texts of the files there are. -/
  files : World → FileMap Path
  getMetadata : Path → World → Except IoError FileMetadata × World
  readFileText : Path → World → Except IoError Str × World
  writeFile : Path → Str → World → Except IoError Unit × World
  remove : Path → World → Except IoError Unit × World
  createDirectory : Path → World → Except IoError Unit × World
  files_getMetadata : ∀ path w, files (getMetadata path w).2 = files w
  files_readFileText : ∀ path w, files (readFileText path w).2 = files w
  files_createDirectory : ∀ path w, files (createDirectory path w).2 = files w
  /-- What is read is what is there. -/
  lookup_of_read : ∀ path w content, (readFileText path w).1 = .ok content →
    (files w).lookup path = some content
  files_of_write : ∀ path content w, (writeFile path content w).1 = .ok () →
    files (writeFile path content w).2 = (files w).insert path content
  lookup_writeFile_of_ne : ∀ path content w other, other ≠ path →
    (files (writeFile path content w).2).lookup other = (files w).lookup other
  files_of_remove : ∀ path w, (remove path w).1 = .ok () →
    files (remove path w).2 = (files w).erase path
  files_of_failed_remove : ∀ path w error, (remove path w).1 = .error error →
    files (remove path w).2 = files w ∨ files (remove path w).2 = (files w).erase path

variable {Path : Type} [DecidableEq Path]

/-! ## A filesystem that fails as it is told -/

/-- What is to go wrong with one call: the error it returns and, for a write or a
removal, the text it leaves at its path if it touches the file at all. -/
structure Fault where
  error : IoError
  leaves : Option (Option Str)
  deriving DecidableEq, Repr

/-- The files and what goes wrong with the next calls, one after the other. -/
structure ScriptedWorld (Path : Type) where
  files : FileMap Path
  script : List (Option Fault)

namespace ScriptedWorld

/-- The next call: what goes wrong with it, and the world without it. -/
def next (w : ScriptedWorld Path) : Option Fault × ScriptedWorld Path :=
  match w.script with
  | [] => (none, w)
  | fault :: rest => (fault, { w with script := rest })

def setFile (w : ScriptedWorld Path) (path : Path) : Option Str → ScriptedWorld Path
  | some content => { w with files := w.files.insert path content }
  | none => { w with files := w.files.erase path }

/-- A call that looks at `path` only. -/
def look {α : Type} (answer : Str → α) (path : Path) (w : ScriptedWorld Path) :
    Except IoError α × ScriptedWorld Path :=
  let (fault, w) := w.next
  match fault, w.files.lookup path with
  | some fault, _ => (.error fault.error, w)
  | none, some content => (.ok (answer content), w)
  | none, none => (.error ⟨.notFound, "No such file or directory".toList⟩, w)

/-- A call that only a fault can stop and that leaves `content` at `path`. -/
def write (path : Path) (content : Str) (w : ScriptedWorld Path) :
    Except IoError Unit × ScriptedWorld Path :=
  let (fault, w) := w.next
  match fault with
  | some fault => (.error fault.error, (fault.leaves.map (w.setFile path)).getD w)
  | none => (.ok (), w.setFile path (some content))

def removeFile (path : Path) (w : ScriptedWorld Path) : Except IoError Unit × ScriptedWorld Path :=
  let (fault, w) := w.next
  match fault with
  | some fault => (.error fault.error, if fault.leaves.isSome then w.setFile path none else w)
  | none =>
    if path ∈ w.files then (.ok (), w.setFile path none)
    else (.error ⟨.notFound, "No such file or directory".toList⟩, w)

def makeDirectory (_path : Path) (w : ScriptedWorld Path) :
    Except IoError Unit × ScriptedWorld Path :=
  let (fault, w) := w.next
  match fault with
  | some fault => (.error fault.error, w)
  | none => (.ok (), w)

omit [DecidableEq Path] in
theorem files_next {w w' : ScriptedWorld Path} {fault : Option Fault} (h : w.next = (fault, w')) :
    w'.files = w.files := by
  unfold next at h
  split at h <;> cases h <;> rfl

theorem files_look {α : Type} (answer : Str → α) (path : Path) (w : ScriptedWorld Path) :
    (look answer path w).2.files = w.files := by
  rcases hnext : w.next with ⟨fault, w'⟩
  simp only [look, hnext, ← files_next hnext]
  split <;> rfl

omit [DecidableEq Path] in
theorem files_makeDirectory (path : Path) (w : ScriptedWorld Path) :
    (makeDirectory path w).2.files = w.files := by
  rcases hnext : w.next with ⟨fault, w'⟩
  simp only [makeDirectory, hnext, ← files_next hnext]
  split <;> rfl

theorem lookup_setFile_of_ne (w : ScriptedWorld Path) {path other : Path} (h : other ≠ path)
    (content : Option Str) : (w.setFile path content).files.lookup other = w.files.lookup other := by
  cases content with
  | none => exact Finmap.lookup_erase_ne h
  | some content => exact Finmap.lookup_insert_of_ne _ h

end ScriptedWorld

open ScriptedWorld

/-- The filesystem of a script.  With the empty script nothing goes wrong. -/
def scripted : ExecutorFileSystem Path (ScriptedWorld Path) where
  files := ScriptedWorld.files
  getMetadata := ScriptedWorld.look fun _ => ⟨false, true, false⟩
  readFileText := ScriptedWorld.look id
  writeFile := ScriptedWorld.write
  remove := ScriptedWorld.removeFile
  createDirectory := ScriptedWorld.makeDirectory
  files_getMetadata := files_look _
  files_readFileText := files_look _
  files_createDirectory := files_makeDirectory
  lookup_of_read := by
    intro path w content hread
    rcases hnext : w.next with ⟨fault, w'⟩
    simp only [ScriptedWorld.look, hnext, ← files_next hnext] at hread ⊢
    split at hread
    · cases hread
    · next hlookup =>
        cases hread
        exact hlookup
    · cases hread
  files_of_write := by
    intro path content w hwrite
    rcases hnext : w.next with ⟨_ | fault, w'⟩
    · simp only [ScriptedWorld.write, hnext, ← files_next hnext]
      rfl
    · simp only [ScriptedWorld.write, hnext] at hwrite
      cases hwrite
  lookup_writeFile_of_ne := by
    intro path content w other hne
    rcases hnext : w.next with ⟨_ | fault, w'⟩
    · simp only [ScriptedWorld.write, hnext, ← files_next hnext]
      exact lookup_setFile_of_ne _ hne _
    · simp only [ScriptedWorld.write, hnext, ← files_next hnext]
      cases fault.leaves with
      | none => rfl
      | some left => exact lookup_setFile_of_ne _ hne left
  files_of_remove := by
    intro path w hremove
    rcases hnext : w.next with ⟨_ | fault, w'⟩
    · simp only [ScriptedWorld.removeFile, hnext, ← files_next hnext] at hremove ⊢
      split_ifs at hremove ⊢
      rfl
    · simp only [ScriptedWorld.removeFile, hnext] at hremove
      cases hremove
  files_of_failed_remove := by
    intro path w error hremove
    rcases hnext : w.next with ⟨_ | fault, w'⟩
    all_goals
      simp only [ScriptedWorld.removeFile, hnext, ← files_next hnext]
      split_ifs
      · exact Or.inr rfl
      · exact Or.inl rfl

end Codex.ApplyPatch
