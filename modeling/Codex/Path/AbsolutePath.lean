import Codex.Lib.Text

/-!
# Absolute paths

`AbsolutePathBuf` on Unix: a path that is absolute and normalised, without having
been looked up on the filesystem.  It is modelled by its components, from the root
down; the type keeps only lists that normalisation can produce.

What the process contributes, its home and its current directory, is a parameter,
since the code asks for both at the time of the call.
-/

namespace Codex

/-- The components of a path text: a leading, doubled or trailing `/` adds none, and
neither does `.`. -/
def pathComponents (path : Str) : List Str :=
  (path.splitOn '/').filter fun component => component ≠ [] ∧ component ≠ ['.']

/-- `normalize_path`, on the components of an absolute path: `..` takes the last
component back, if there is one. -/
def normalizePath (components : List Str) : List Str :=
  components.foldl (fun normalized component =>
      if component = ['.', '.'] then normalized.dropLast else normalized ++ [component])
    []

/-- A component as it may stand in a normalised path. -/
def IsNormalComponent (component : Str) : Prop :=
  component ≠ [] ∧ component ≠ ['.'] ∧ component ≠ ['.', '.'] ∧ '/' ∉ component

instance : DecidablePred IsNormalComponent :=
  fun _ => inferInstanceAs (Decidable (_ ∧ _ ∧ _ ∧ _))

/-- An absolute, normalised path, by its components. -/
structure AbsolutePathBuf where
  components : List Str
  normal : ∀ component ∈ components, IsNormalComponent component
  deriving DecidableEq

theorem normal_of_mem_normalizePath {components : List Str}
    (h : ∀ component ∈ components, component ≠ [] ∧ component ≠ ['.'] ∧ '/' ∉ component) :
    ∀ component ∈ normalizePath components, IsNormalComponent component := by
  refine List.foldlRecOn (motive := fun normalized : List Str =>
    ∀ component ∈ normalized, IsNormalComponent component) _ _ (by simp)
    fun normalized hnormal component hmem => ?_
  split_ifs with hparent
  · exact fun c hc => hnormal c (List.dropLast_subset _ hc)
  · obtain ⟨hempty, hdot, hslash⟩ := h component hmem
    rw [List.forall_mem_append, List.forall_mem_singleton]
    exact ⟨hnormal, hempty, hdot, hparent, hslash⟩

theorem mem_pathComponents {path component : Str} (h : component ∈ pathComponents path) :
    component ≠ [] ∧ component ≠ ['.'] ∧ '/' ∉ component := by
  obtain ⟨hsplit, hkept⟩ := List.mem_filter.mp h
  obtain ⟨hempty, hdot⟩ := of_decide_eq_true hkept
  exact ⟨hempty, hdot, Text.notMem_of_mem_splitOn hsplit⟩

namespace AbsolutePathBuf

/-- The path of an absolute path text. -/
def normalize (path : Str) : AbsolutePathBuf where
  components := normalizePath (pathComponents path)
  normal := normal_of_mem_normalizePath fun _ h => mem_pathComponents h

/-- What a call learns from the process: the home and the current directory. -/
structure Process where
  homeDirectory : Option Str
  currentDir : Option Str
  deriving DecidableEq, Repr

/-- `Path::is_absolute` on Unix. -/
def isAbsoluteText (path : Str) : Bool := path.head? = some '/'

/-- `Path::join`: an absolute path replaces the base. -/
def joinText (base path : Str) : Str :=
  if isAbsoluteText path then path else base ++ ['/'] ++ path

def maybeExpandHomeDirectory (process : Process) (path : Str) : Str :=
  match path, process.homeDirectory with
  | '~' :: rest, some home =>
    match rest with
    | [] => home
    | '/' :: rest => joinText home (rest.dropWhile (· = '/'))
    | _ => path
  | _, _ => path

/-- `from_absolute_path`: a relative path is taken from the current directory. -/
def fromAbsolutePath (process : Process) (path : Str) : Option AbsolutePathBuf :=
  let expanded := maybeExpandHomeDirectory process path
  if isAbsoluteText expanded then some (normalize expanded)
  else process.currentDir.map fun dir => normalize (joinText dir expanded)

/-- `Path::file_name`: the last component, which the root does not have. -/
def fileName (path : AbsolutePathBuf) : Option Str := path.components.getLast?

end AbsolutePathBuf

end Codex
