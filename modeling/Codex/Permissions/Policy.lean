import Codex.Path.PathUri
import Codex.Lib.MostSpecific

/-!
# The file system policy of a sandbox

A policy is a list of entries, each of which gives an access to a path.  Entries may
name symbolic places, such as the roots of the project, that only the context of an
executor turns into paths.  The access at a path is the one of the deepest entry at or
above it; at equal depth `deny` wins over `write` and `write` over `read`.

Directly under a writable root some names hold metadata of tools.  These stay read-only
unless an entry at or below them grants the write.
-/

namespace Codex

open Text

/-- In the order of conflict precedence. -/
inductive FileSystemAccessMode where
  | read
  | write
  | deny
  deriving DecidableEq, Repr

namespace FileSystemAccessMode

def precedence : FileSystemAccessMode → ℕ
  | read => 0
  | write => 1
  | deny => 2

theorem precedence_injective : Function.Injective precedence := by
  intro left right h
  cases left <;> cases right <;> first | rfl | cases h

instance : LinearOrder FileSystemAccessMode := LinearOrder.lift' precedence precedence_injective

theorem le_deny (access : FileSystemAccessMode) : access ≤ deny := by
  cases access <;> decide

def canRead (access : FileSystemAccessMode) : Bool := access ≠ deny

def canWrite (access : FileSystemAccessMode) : Bool := access = write

end FileSystemAccessMode

open FileSystemAccessMode

inductive FileSystemSpecialPath where
  | root
  | minimal
  | projectRoots (subpath : Option Str)
  | tmpdir
  | slashTmp
  | unknown (path : Str) (subpath : Option Str)
  deriving DecidableEq, Repr

inductive FileSystemPath where
  | path (path : PathUri)
  | globPattern (pattern : Str)
  | special (value : FileSystemSpecialPath)
  deriving DecidableEq, Repr

/-- `PartialEq`, with the equality of paths. -/
def FileSystemPath.same : FileSystemPath → FileSystemPath → Bool
  | path left, path right => left.same right
  | globPattern left, globPattern right => left = right
  | special left, special right => left = right
  | _, _ => false

inductive MissingPathBehavior where
  | skip
  deriving DecidableEq, Repr

structure FileSystemSandboxEntry where
  path : FileSystemPath
  access : FileSystemAccessMode
  missingPathBehavior : Option MissingPathBehavior := none
  deriving DecidableEq, Repr

/-- `PartialEq`. -/
def FileSystemSandboxEntry.same (left right : FileSystemSandboxEntry) : Bool :=
  left.path.same right.path && left.access = right.access &&
    left.missingPathBehavior = right.missingPathBehavior

inductive FileSystemSandboxKind where
  | restricted
  | unrestricted
  | externalSandbox
  deriving DecidableEq, Repr

structure FileSystemSandboxPolicy where
  kind : FileSystemSandboxKind
  entries : List FileSystemSandboxEntry
  deriving DecidableEq, Repr

def FileSystemSandboxPolicy.restricted (entries : List FileSystemSandboxEntry) :
    FileSystemSandboxPolicy :=
  ⟨.restricted, entries⟩

/-- The paths of an executor that symbolic entries refer to. -/
structure FileSystemSandboxPolicyContext where
  cwd : PathUri
  workspaceRoots : List PathUri
  userHomeDir : Option PathUri
  temporaryDirectories : Option (List PathUri)
  deriving DecidableEq, Repr

def FileSystemSandboxPolicyContext.convention (context : FileSystemSandboxPolicyContext) :
    Option PathConvention :=
  context.cwd.inferPathConvention

def fileSystemRoot (context : FileSystemSandboxPolicyContext) : Option PathUri :=
  context.cwd.lexicalDepth.map fun _ => context.cwd.ancestorsLast

/-! ## Rules -/

namespace FileSystemSandboxPolicy

/-- A root that is neither opaque nor has a lexical depth; it makes every path denied. -/
def ambiguousRoot (root : PathUri) : Bool := root.lexicalDepth.isNone && !root.isOpaque

def ruleOf (entry : PathUri × FileSystemAccessMode) : Option (Rule PathUri FileSystemAccessMode) :=
  entry.1.lexicalDepth.map fun depth => ⟨entry.1, entry.2, depth⟩

/-- The entries with their depths: opaque roots are skipped, other roots without a depth
are an error. -/
def rulesOf : List (PathUri × FileSystemAccessMode) →
    Option (List (Rule PathUri FileSystemAccessMode))
  | [] => some []
  | (root, access) :: rest =>
    match root.lexicalDepth with
    | some depth => (rulesOf rest).map (⟨root, access, depth⟩ :: ·)
    | none => if root.isOpaque then rulesOf rest else none

theorem rulesOf_eq (entries : List (PathUri × FileSystemAccessMode)) :
    rulesOf entries =
      if entries.any fun entry => ambiguousRoot entry.1 then none
      else some (entries.filterMap ruleOf) := by
  induction entries with
  | nil => rfl
  | cons entry rest ih =>
    obtain ⟨root, access⟩ := entry
    cases hdepth : root.lexicalDepth with
    | some depth =>
      have hrule : ruleOf (root, access) = some ⟨root, access, depth⟩ := by
        simp [ruleOf, hdepth]
      have hclear : ambiguousRoot root = false := by simp [ambiguousRoot, hdepth]
      rw [List.filterMap_cons_some hrule, List.any_cons, hclear, Bool.false_or]
      simp only [rulesOf, hdepth, ih]
      split_ifs <;> rfl
    | none =>
      have hrule : ruleOf (root, access) = none := by simp [ruleOf, hdepth]
      rw [List.filterMap_cons_none hrule, List.any_cons]
      cases hfallback : root.isOpaque with
      | true =>
        have hclear : ambiguousRoot root = false := by simp [ambiguousRoot, hfallback]
        rw [hclear, Bool.false_or, ← ih]
        simp only [rulesOf, hdepth, hfallback, if_true]
      | false =>
        have hambiguous : ambiguousRoot root = true := by
          simp [ambiguousRoot, hdepth, hfallback]
        simp [rulesOf, hdepth, hfallback, hambiguous]

end FileSystemSandboxPolicy

/-! ## Full-disk access -/

/-- The two symbolic places are the same before any path is known. -/
def specialPathsShareTarget : FileSystemSpecialPath → FileSystemSpecialPath → Bool
  | .root, .root => true
  | .minimal, .minimal => true
  | .tmpdir, .tmpdir => true
  | .slashTmp, .slashTmp => true
  | .projectRoots left, .projectRoots right => left = right
  | .unknown left leftSubpath, .unknown right rightSubpath =>
    left = right && leftSubpath = rightSubpath
  | _, _ => false

def specialPathMatchesPathUri (value : FileSystemSpecialPath) (path : PathUri) : Bool :=
  match value with
  | .root => path.lexicalDepth.isSome && path.parent.isNone
  | .slashTmp =>
    path.inferPathConvention = some .posix && path.lexicalDepth = some 1 &&
      path.basename = some (Bytes.asBytes "tmp".toList)
  | _ => false

def fileSystemPathsShareTarget (left right : FileSystemPath) (convention : PathConvention) : Bool :=
  match left, right with
  | .path left, .path right => left.same right
  | .special left, .special right => specialPathsShareTarget left right
  | .path path, .special value =>
    path.inferPathConvention = some convention && specialPathMatchesPathUri value path
  | .special value, .path path =>
    path.inferPathConvention = some convention && specialPathMatchesPathUri value path
  | .globPattern left, .globPattern right => left = right
  | .globPattern _, _ => false
  | _, .globPattern _ => false

namespace FileSystemSandboxPolicy

variable (policy : FileSystemSandboxPolicy)

def hasRootAccess (predicate : FileSystemAccessMode → Bool) : Bool :=
  policy.kind = .restricted &&
    policy.entries.any fun entry => entry.path = .special .root && predicate entry.access

/-- A write of higher precedence has the same target. -/
def hasSameTargetWriteOverride (entry : FileSystemSandboxEntry) (convention : PathConvention) :
    Bool :=
  policy.entries.any fun candidate =>
    candidate.access.canWrite && entry.access < candidate.access &&
      fileSystemPathsShareTarget candidate.path entry.path convention

/-- The entry takes something away from a write access to the root. -/
def narrowsWrite (convention : PathConvention) (entry : FileSystemSandboxEntry) : Bool :=
  if entry.access.canWrite then false
  else
    match entry.path with
    | .path _ => !policy.hasSameTargetWriteOverride entry convention
    | .globPattern _ => true
    | .special .root => entry.access = deny
    | .special .minimal => false
    | .special (.unknown _ _) => false
    | .special .slashTmp =>
      convention ≠ .windows && !policy.hasSameTargetWriteOverride entry convention
    | .special .tmpdir => !policy.hasSameTargetWriteOverride entry convention
    | .special (.projectRoots _) => !policy.hasSameTargetWriteOverride entry convention

def hasWriteNarrowingEntries (convention : PathConvention) : Bool :=
  policy.kind = .restricted && policy.entries.any (policy.narrowsWrite convention)

/-- `has_full_disk_write_access_for_convention`. -/
def hasFullDiskWriteAccess (convention : Option PathConvention) : Bool :=
  match policy.kind with
  | .unrestricted => true
  | .externalSandbox => true
  | .restricted =>
    convention.any fun convention =>
      policy.hasRootAccess canWrite && !policy.hasWriteNarrowingEntries convention

end FileSystemSandboxPolicy

/-- Names that stay protected directly under a writable root. -/
def protectedMetadataPathNames : List Str :=
  [".git".toList, ".agents".toList, ".codex".toList, ".aws".toList]

section

variable [UrlHosts] (context : FileSystemSandboxPolicyContext)

/-! ## Resolved entries -/

/-- The paths a symbolic place stands for. -/
def FileSystemSpecialPath.resolve : FileSystemSpecialPath → List PathUri
  | root => (fileSystemRoot context).toList
  | projectRoots subpath =>
    context.workspaceRoots.filterMap fun root =>
      match subpath with
      | some subpath => root.join subpath
      | none => some root
  | tmpdir => context.temporaryDirectories.getD []
  | slashTmp =>
    if context.convention = some .posix then (context.cwd.join "/tmp".toList).toList else []
  | minimal => []
  | unknown _ _ => []

def FileSystemPath.resolve : FileSystemPath → List PathUri
  | path uri => [uri]
  | globPattern _ => []
  | special value => value.resolve context

/-- The roots of an entry that belong to the convention of the executor. -/
def FileSystemSandboxEntry.roots (entry : FileSystemSandboxEntry) : List PathUri :=
  (entry.path.resolve context).filter fun path => path.inferPathConvention = context.convention

namespace FileSystemSandboxPolicy

variable (policy : FileSystemSandboxPolicy)

def resolvedEntries (context : FileSystemSandboxPolicyContext) :
    List (PathUri × FileSystemAccessMode) :=
  policy.entries.flatMap fun entry => (entry.roots context).map fun path => (path, entry.access)

theorem mem_resolvedEntries {policy : FileSystemSandboxPolicy}
    {context : FileSystemSandboxPolicyContext} {root : PathUri} {access : FileSystemAccessMode} :
    (root, access) ∈ policy.resolvedEntries context ↔
      ∃ entry ∈ policy.entries, root ∈ entry.roots context ∧ entry.access = access := by
  simp only [resolvedEntries, List.mem_flatMap, List.mem_map, Prod.mk.injEq]
  constructor
  · rintro ⟨entry, hentry, path, hpath, rfl, rfl⟩
    exact ⟨entry, hentry, hpath, rfl⟩
  · rintro ⟨entry, hentry, hroot, rfl⟩
    exact ⟨entry, hentry, root, hroot, rfl, rfl⟩

/-! ## The access at a path -/

variable (path : PathUri) (context : FileSystemSandboxPolicyContext)

/-- The path can be compared with the roots of the executor. -/
def comparable : Bool :=
  context.convention.isSome && path.inferPathConvention = context.convention &&
    path.lexicalDepth.isSome && context.cwd.lexicalDepth.isSome

/-- The access of the most specific entry at or above the path; without one it is denied. -/
def resolveAccess : FileSystemAccessMode :=
  match policy.kind with
  | .unrestricted => write
  | .externalSandbox => write
  | .restricted =>
    if comparable path context then
      match rulesOf (policy.resolvedEntries context) with
      | none => deny
      | some rules => ((Rule.governing path.startsWith rules).map Rule.access).getD deny
    else deny

/-! ## Protected metadata -/

/-- The first metadata directory of a root that the path is in, with its name. -/
def protectedDirOf (root : PathUri) : Option (PathUri × Str) :=
  protectedMetadataPathNames.findSome? fun name =>
    ((root.joinDescendant name).filter path.startsWith).map (·, name)

/-- Some writable root at or below the directory holds the path. -/
def overridden (entries : List (PathUri × FileSystemAccessMode)) (path directory : PathUri) : Bool :=
  entries.any fun entry =>
    entry.2.canWrite && path.startsWith entry.1 && entry.1.startsWith directory

/-- The name of the metadata directory that keeps the path from being written. -/
def metadataWriteDenial : Option Str :=
  if policy.kind = .restricted then
    let entries := policy.resolvedEntries context
    match (entries.filter fun entry => entry.2.canWrite).findSome? fun entry =>
        protectedDirOf path entry.1 with
    | some (directory, name) => if overridden entries path directory then none else some name
    | none => none
  else none

def canWritePath : Bool :=
  if (policy.resolveAccess path context).canWrite then
    policy.hasFullDiskWriteAccess context.convention ||
      (policy.metadataWriteDenial path context).isNone
  else false

end FileSystemSandboxPolicy

end

end Codex
