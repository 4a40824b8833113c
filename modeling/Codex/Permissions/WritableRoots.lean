import Codex.Permissions.Access
import Codex.Permissions.MetadataOrder

/-!
# The writable roots handed to the operating system

An OS sandbox gets a list of writable roots, each with the subpaths that stay read-only
and the metadata names protected directly under it.  What some root of the list allows
should be allowed by the policy.  The roots are independent of each other, though: the
metadata below a nested writable root is protected by that root only, and the root above
it lets it be written.  The list also works with the entries as the local host resolves
them, and with paths as they are spelled.

The model is that of a Unix host other than macOS without symbolic links and without
`.git` pointer files: the effective form of a path is the path itself.  Where no entry can
be written, the code returns early; here the list is then empty on its own.

`rootsRespectPolicy_iff` compares the list with the policy path by path: a root of the list allows
what its entry exposes (`exposed_iff`), so it has to be asked which exposed paths the policy lets
be written (`ExposesNoMore`).  The nested roots are `not_rootsRespectPolicy_nested`.
-/

namespace Codex

open Bytes FileSystemAccessMode PathUri List NativePath

/-- What the code asks the local host for. -/
structure LocalHost where
  isDir : NativePath → Bool
  home : Option (List ℕ)
  tmpdir : Option NativePath

/-- `LocalPolicyContext`. -/
def LocalHost.context (host : LocalHost) (cwd : NativePath) : FileSystemSandboxPolicyContext where
  cwd := cwd.uri
  workspaceRoots := [cwd.uri]
  userHomeDir := (host.home.filter fun home => home.head? = some 47).map fun home =>
    (NativePath.ofBytes home).uri
  temporaryDirectories := some (host.tmpdir.map NativePath.uri).toList

/-- `AbsolutePathBuf::join`. -/
def LocalHost.join (host : LocalHost) (base : NativePath) (path : Str) : NativePath :=
  NativePath.resolvePathAgainstBase host.home (asBytes path) base

def LocalHost.slashTmp : NativePath := NativePath.ofBytes (asBytes "/tmp".toList)

/-- `resolve_candidate_path`. -/
def LocalHost.resolveCandidatePath (host : LocalHost) (path : List ℕ) (cwd : NativePath) :
    NativePath :=
  if path.head? = some 47 then NativePath.ofBytes path
  else NativePath.resolvePathAgainstBase host.home path cwd

/-- `resolve_entry_path`. -/
def LocalHost.resolveEntryPath (host : LocalHost) (cwd : NativePath) :
    FileSystemPath → Option NativePath
  | .path path => path.toAbsPath
  | .globPattern _ => none
  | .special .root => some NativePath.root
  | .special .minimal => none
  | .special (.unknown _ _) => none
  | .special (.projectRoots none) => some cwd
  | .special (.projectRoots (some subpath)) => some (host.join cwd subpath)
  | .special .tmpdir => host.tmpdir
  | .special .slashTmp =>
    if host.isDir LocalHost.slashTmp then some LocalHost.slashTmp else none

/-- `Path::starts_with`, for a path as it is spelled. -/
def pathStartsWith (path : List ℕ) (base : NativePath) : Bool :=
  path.head? = some 47 && base.components.isPrefixOf (pathByteComponents path)

structure WritableRoot where
  root : NativePath
  readOnlySubpaths : List NativePath
  protectedMetadataNames : List Str
  deriving DecidableEq

namespace WritableRoot

def pathContainsProtectedMetadataName (writable : WritableRoot) (path : List ℕ) : Bool :=
  ((pathByteComponents path).drop writable.root.components.length).head?.any fun first =>
    writable.protectedMetadataNames.any fun name => asBytes name = first

def isPathWritable (writable : WritableRoot) (path : List ℕ) : Bool :=
  pathStartsWith path writable.root && !(writable.readOnlySubpaths.any (pathStartsWith path)) &&
    !writable.pathContainsProtectedMetadataName path

end WritableRoot

/-- `default_read_only_subpaths_for_writable_root`: metadata directories that exist, and `.codex`
of the working directory in any case. -/
def LocalHost.defaultReadOnlySubpaths (host : LocalHost) (root : NativePath)
    (protectMissingDotCodex : Bool) : List NativePath :=
  let git := host.join root ".git".toList
  let agents := host.join root ".agents".toList
  let codex := host.join root ".codex".toList
  let aws := host.join root ".aws".toList
  ((if host.isDir git then [git] else []) ++ (if host.isDir agents then [agents] else []) ++
    (if protectMissingDotCodex || host.isDir codex then [codex] else []) ++
    (if host.isDir aws then [aws] else [])).eraseDups

namespace FileSystemSandboxPolicy

variable [UrlHosts]

variable (policy : FileSystemSandboxPolicy)

def resolvedEntriesWithCwd (host : LocalHost) (cwd : NativePath) :
    List (NativePath × FileSystemAccessMode) :=
  policy.entries.filterMap fun entry =>
    (host.resolveEntryPath cwd entry.path).map fun path => (path, entry.access)

/-- `can_write_path` of the local matcher. -/
def canWriteNative (host : LocalHost) (cwd path : NativePath) : Bool :=
  policy.canWritePath path.uri (host.context cwd)

def canWriteLocalPathWithCwd (host : LocalHost) (path : List ℕ) (cwd : NativePath) : Bool :=
  policy.canWriteNative host cwd (host.resolveCandidatePath path cwd)

/-- The entries whose access is the one that counts at their own path. -/
def effectiveEntries (host : LocalHost) (cwd : NativePath) :
    List (NativePath × FileSystemAccessMode) :=
  (policy.resolvedEntriesWithCwd host cwd).filter fun entry =>
    entry.2.canWrite = policy.canWriteNative host cwd entry.1

/-- The writable root at a path: entries strictly below it that cannot be written are carved out,
next to the default metadata directories that no entry mentions. -/
def writableRootAt (host : LocalHost) (cwd root : NativePath) : WritableRoot where
  root := root
  readOnlySubpaths :=
    (((host.defaultReadOnlySubpaths root (cwd = root)).filter fun path =>
        !((policy.resolvedEntriesWithCwd host cwd).any fun entry => entry.1 = path)) ++
      ((policy.effectiveEntries host cwd).filter fun entry =>
        !entry.2.canWrite && entry.1 ≠ root && entry.1.startsWith root).map Prod.fst).eraseDups
  protectedMetadataNames :=
    protectedMetadataPathNames.filter fun name =>
      !policy.canWriteNative host cwd (host.join root name)

def getWritableRootsWithCwd (host : LocalHost) (cwd : NativePath) : List WritableRoot :=
  if policy.hasFullDiskWriteAccess (some .posix) then []
  else
    (((policy.effectiveEntries host cwd).filter fun entry => entry.2.canWrite).map
      Prod.fst).eraseDups.map (policy.writableRootAt host cwd)

/-! ## Paths the policy lets be written -/

variable {host : LocalHost} {cwd target above : NativePath} {directory root : PathUri}
  {entries : List FileSystemSandboxEntry} {context : FileSystemSandboxPolicyContext}

omit [UrlHosts] in
theorem find?_of_imp {α : Type*} {p q : α → Bool} {l : List α} {a : α} (h : l.find? p = some a)
    (himp : ∀ b ∈ l, q b = true → p b = true) (ha : q a = true) : l.find? q = some a := by
  obtain ⟨-, before, after, hsplit, hbefore⟩ := find?_eq_some_iff_append.mp h
  refine find?_eq_some_iff_append.mpr ⟨ha, before, after, hsplit, ?_⟩
  intro b hb
  have hp := hbefore b hb
  have hmem : b ∈ l := by
    rw [hsplit]
    exact mem_append_left _ hb
  rw [Bool.not_eq_true'] at hp ⊢
  rw [Bool.eq_false_iff]
  intro hq
  rw [himp b hmem hq] at hp
  cases hp

/-- A native path that the policy lets be written, with what is known about it. -/
structure Writable (entries : List FileSystemSandboxEntry) (host : LocalHost)
    (cwd path : NativePath) : Prop where
  location : path.uri.location = some path.place
  convention : (host.context cwd).convention = some .posix
  comparable : comparable path.uri (host.context cwd) = true
  unambiguous : (restricted entries).Unambiguous (host.context cwd)
  access : (restricted entries).resolveAccess path.uri (host.context cwd) = write
  overridden : ∀ directory,
    ((restricted entries).protectedDirs (host.context cwd)).find? path.uri.startsWith
        = some directory →
      overridden ((restricted entries).resolvedEntries (host.context cwd)) path.uri directory = true

omit [UrlHosts] in
theorem location_of_lexicalDepth (h : target.uri.lexicalDepth.isSome = true) :
    target.uri.location = some target.place := by
  obtain ⟨place, hplace⟩ := exists_location_of_lexicalDepth h
  rw [hplace, place_of_location hplace]

omit [UrlHosts] in
theorem location_of_comparable (h : comparable target.uri (host.context cwd) = true) :
    target.uri.location = some target.place ∧ (host.context cwd).convention = some .posix := by
  simp only [comparable, Bool.and_eq_true] at h
  obtain ⟨⟨-, htarget⟩, hcwd⟩ := h
  exact ⟨location_of_lexicalDepth htarget,
    (location_eq_some_iff.mp (location_of_lexicalDepth hcwd)).2.1⟩

theorem canWriteNative_iff
    (hfull : (restricted entries).hasFullDiskWriteAccess (some .posix) = false) :
    (restricted entries).canWriteNative host cwd target = true ↔ Writable entries host cwd target := by
  unfold canWriteNative
  rw [canWritePath_restricted_iff]
  constructor
  · rintro ⟨haccess, hprotected⟩
    obtain ⟨hcomparable, hclear, -⟩ := (resolveAccess_eq_iff_of_ne_deny rfl (by decide)).mp haccess
    obtain ⟨hlocation, hconvention⟩ := location_of_comparable hcomparable
    refine ⟨hlocation, hconvention, hcomparable, hclear, haccess, ?_⟩
    intro directory hfirst
    rw [hconvention, hfull] at hprotected
    rw [← findSome?_firstProtectedDir] at hfirst
    exact (hprotected.resolve_left Bool.false_ne_true) directory hfirst
  · intro hwritable
    refine ⟨hwritable.access, .inr ?_⟩
    intro directory hfirst
    rw [findSome?_firstProtectedDir] at hfirst
    exact hwritable.overridden directory hfirst

/-! ## Metadata directories below a writable path -/

variable {policy : FileSystemSandboxPolicy}

/-- A metadata directory that holds a native path lies one name below its writable root. -/
theorem exists_location_of_mem_protectedDirs (hconvention : context.convention = some .posix)
    (htarget : target.uri.location = some target.place)
    (hdirectory : directory ∈ policy.protectedDirs context)
    (hstarts : target.uri.startsWith directory = true) :
    ∃ (place : Location) (name : Str), name ∈ protectedMetadataPathNames ∧
      place.convention = .posix ∧
      directory.location = some { place with names := place.names ++ [asBytes name] } := by
  simp only [protectedDirs, mem_flatMap, mem_filter, mem_filterMap, Prod.exists,
    canWrite] at hdirectory
  obtain ⟨root, access, ⟨hroot, haccess⟩, name, hname, hjoin⟩ := hdirectory
  obtain ⟨directoryPlace, hdirectoryPlace⟩ := exists_location_of_startsWith htarget hstarts
  have hinside : directory.startsWith root = true := by
    obtain ⟨descendant, -, hjoin⟩ := Option.bind_eq_some_iff.mp hjoin
    dsimp only at hjoin
    split_ifs at hjoin with hrefused
    obtain rfl := Option.some_inj.mp hjoin
    simp only [Bool.or_eq_true, not_or, Bool.not_eq_true', Bool.not_eq_false] at hrefused
    exact hrefused.2
  obtain ⟨place, hplace⟩ := exists_location_of_startsWith hdirectoryPlace hinside
  have hposix : place.convention = .posix := by
    have hinfer := (location_eq_some_iff.mp hplace).2.1
    rw [inferPathConvention_of_mem hroot, hconvention, Option.some_inj] at hinfer
    exact hinfer.symm
  exact ⟨place, name, hname, hposix,
    location_joinDescendant (plainName_of_mem hname) hplace hposix hjoin⟩

/-- A metadata directory that is overridden at a writable path inside it is overridden at
everything below that path. -/
theorem Writable.overridden_of_below (h : Writable entries host cwd above)
    (htarget : target.uri.location = some target.place) (hbelow : target.place.Below above.place)
    (hfirst : ((restricted entries).protectedDirs (host.context cwd)).find? target.uri.startsWith
      = some directory)
    (hinside : above.uri.startsWith directory = true) :
    FileSystemSandboxPolicy.overridden ((restricted entries).resolvedEntries (host.context cwd))
      target.uri directory = true := by
  -- the path above is in fewer directories, so the first of its own is this one
  have hfewer : ∀ other ∈ (restricted entries).protectedDirs (host.context cwd),
      above.uri.startsWith other = true → target.uri.startsWith other = true := by
    intro other hother hstarts
    obtain ⟨place, name, -, hposix, hplace⟩ :=
      exists_location_of_mem_protectedDirs h.convention h.location hother hstarts
    have hinfer := (location_eq_some_iff.mp hplace).2.1
    rw [hposix] at hinfer
    exact startsWith_of_below htarget h.location hbelow (decodesToText_of_posix hinfer) hstarts
  obtain ⟨root, hroot, hcovers, hunder⟩ :=
    overridden_eq_true_iff.mp (h.overridden directory (find?_of_imp hfirst hfewer hinside))
  have hinfer := (inferPathConvention_of_mem hroot).trans h.convention
  exact overridden_eq_true_iff.mpr ⟨root, hroot, startsWith_of_below htarget h.location
    hbelow (decodesToText_of_posix hinfer) hcovers, hunder⟩

/-! ## What a writable root allows -/

variable {access : FileSystemAccessMode}

theorem mem_effectiveEntries {path : NativePath} :
    (path, access) ∈ policy.effectiveEntries host cwd ↔
      (path, access) ∈ policy.resolvedEntriesWithCwd host cwd ∧
        access.canWrite = policy.canWriteNative host cwd path := by
  simp [effectiveEntries]

theorem mem_getWritableRootsWithCwd {writable : WritableRoot} :
    writable ∈ policy.getWritableRootsWithCwd host cwd ↔
      policy.hasFullDiskWriteAccess (some .posix) = false ∧
        ∃ root, (root, write) ∈ policy.resolvedEntriesWithCwd host cwd ∧
          policy.canWriteNative host cwd root = true ∧
          policy.writableRootAt host cwd root = writable := by
  unfold getWritableRootsWithCwd
  split_ifs with hfull
  · simp [hfull]
  · simp only [mem_map, mem_eraseDups, mem_filter, Prod.exists, hfull, true_and]
    constructor
    · rintro ⟨root, ⟨path, access, ⟨hmem, haccess⟩, rfl⟩, rfl⟩
      obtain rfl : access = write := by simpa [canWrite] using haccess
      obtain ⟨hentry, hcan⟩ := mem_effectiveEntries.mp hmem
      exact ⟨path, hentry, by simpa [canWrite] using hcan.symm, rfl⟩
    · rintro ⟨root, hentry, hcan, rfl⟩
      exact ⟨root, ⟨root, write, ⟨mem_effectiveEntries.mpr ⟨hentry, by simp [canWrite, hcan]⟩,
        by simp [canWrite]⟩, rfl⟩, rfl⟩

/-- The entries let a path be written below one of them: the policy lets the entry's own path be
written, and neither an entry below it, nor a default metadata directory that no entry mentions,
nor a metadata name right below it holds the path. -/
structure Exposed (entries : List FileSystemSandboxEntry) (host : LocalHost) (cwd root : NativePath)
    (path : List ℕ) : Prop where
  entry : (root, write) ∈ (restricted entries).resolvedEntriesWithCwd host cwd
  canWriteRoot : (restricted entries).canWriteNative host cwd root = true
  under : pathStartsWith path root = true
  notCarved : ∀ subpath access,
    (subpath, access) ∈ (restricted entries).resolvedEntriesWithCwd host cwd → access ≠ write →
    (restricted entries).canWriteNative host cwd subpath = false → subpath ≠ root →
    subpath.startsWith root = true → pathStartsWith path subpath = false
  notDefault : ∀ subpath ∈ host.defaultReadOnlySubpaths root (cwd = root),
    (∀ access, (subpath, access) ∉ (restricted entries).resolvedEntriesWithCwd host cwd) →
    pathStartsWith path subpath = false
  notNamed : ∀ name ∈ protectedMetadataPathNames,
    (restricted entries).canWriteNative host cwd (host.join root name) = false →
    ((pathByteComponents path).drop root.components.length).head? ≠ some (asBytes name)

theorem mem_readOnlySubpaths {root subpath : NativePath} :
    subpath ∈ (policy.writableRootAt host cwd root).readOnlySubpaths ↔
      (subpath ∈ host.defaultReadOnlySubpaths root (cwd = root) ∧
        ∀ access, (subpath, access) ∉ policy.resolvedEntriesWithCwd host cwd) ∨
      ∃ access, (subpath, access) ∈ policy.resolvedEntriesWithCwd host cwd ∧ access ≠ write ∧
        policy.canWriteNative host cwd subpath = false ∧ subpath ≠ root ∧
        subpath.startsWith root = true := by
  have hdefault : (!((policy.resolvedEntriesWithCwd host cwd).any fun entry =>
      entry.1 = subpath)) = true ↔
        ∀ access, (subpath, access) ∉ policy.resolvedEntriesWithCwd host cwd := by
    simp only [Bool.not_eq_true', any_eq_false, decide_eq_true_eq, Prod.forall]
    constructor
    · intro h access hmem
      exact h subpath access hmem rfl
    · rintro h path access hmem rfl
      exact h access hmem
  simp only [writableRootAt, mem_eraseDups, mem_append, mem_filter, hdefault,
    mem_map, Prod.exists, exists_and_right, exists_eq_right]
  refine or_congr Iff.rfl (exists_congr fun access => ?_)
  rw [mem_effectiveEntries]
  by_cases haccess : access = write
  · simp [haccess, canWrite]
  · simp [haccess, canWrite, and_assoc]

variable {path : List ℕ}

theorem pathContainsProtectedMetadataName_eq_false_iff {root : NativePath} :
    (policy.writableRootAt host cwd root).pathContainsProtectedMetadataName path = false ↔
      ∀ name ∈ protectedMetadataPathNames,
        policy.canWriteNative host cwd (host.join root name) = false →
        ((pathByteComponents path).drop root.components.length).head? ≠ some (asBytes name) := by
  unfold WritableRoot.pathContainsProtectedMetadataName writableRootAt
  cases ((pathByteComponents path).drop root.components.length).head? with
  | none => simp
  | some first => simp [@eq_comm _ first]

theorem exposed_iff {root : NativePath}
    (hentry : (root, write) ∈ (restricted entries).resolvedEntriesWithCwd host cwd)
    (hcan : (restricted entries).canWriteNative host cwd root = true) :
    ((restricted entries).writableRootAt host cwd root).isPathWritable path = true ↔
      Exposed entries host cwd root path := by
  rw [WritableRoot.isPathWritable, Bool.and_eq_true, Bool.and_eq_true, Bool.not_eq_true',
    Bool.not_eq_true', pathContainsProtectedMetadataName_eq_false_iff, any_eq_false]
  simp only [mem_readOnlySubpaths, Bool.not_eq_true]
  constructor
  · rintro ⟨⟨hunder, hsubpaths⟩, hnamed⟩
    refine ⟨hentry, hcan, hunder, ?_, ?_, hnamed⟩
    · intro subpath access hmem haccess hcannot hne hstarts
      exact hsubpaths subpath (Or.inr ⟨access, hmem, haccess, hcannot, hne, hstarts⟩)
    · intro subpath hmem hunmentioned
      exact hsubpaths subpath (Or.inl ⟨hmem, hunmentioned⟩)
  · intro h
    refine ⟨⟨h.under, ?_⟩, h.notNamed⟩
    rintro subpath (⟨hmem, hunmentioned⟩ | ⟨access, hmem, haccess, hcannot, hne, hstarts⟩)
    · exact h.notDefault subpath hmem hunmentioned
    · exact h.notCarved subpath access hmem haccess hcannot hne hstarts

/-! ## From the roots to the policy -/

omit [UrlHosts] in
theorem components_join {name : Str} (hname : name ∈ protectedMetadataPathNames)
    (root : NativePath) : (host.join root name).components = root.components ++ [asBytes name] := by
  have hsingle : ∀ name ∈ protectedMetadataPathNames, pathByteComponents (asBytes name) =
      [asBytes name] ∧ asBytes name ≠ [46, 46] ∧ (asBytes name).head? = some 46 := by decide
  obtain ⟨hcomponents, hdots, hhead⟩ := hsingle name hname
  rw [LocalHost.join, components_resolvePathAgainstBase (by simp [hhead])
    (by simp [hhead]), hcomponents, foldl_normalizeStep (by simpa using Ne.symm hdots)]

omit [UrlHosts] in
theorem pathStartsWith_iff_below {path : List ℕ} {base : NativePath}
    (hspelled : pathByteComponents path = target.components) (habsolute : path.head? = some 47) :
    pathStartsWith path base = true ↔ target.place.Below base.place := by
  simp [pathStartsWith, habsolute, hspelled, Location.Below, NativePath.place]

/-- The entries as the local host resolves them agree with the entries as the policy does, as far
as the path is concerned, and the metadata directory that the policy finds first is not that of a
writable root further down. -/
structure Agrees (entries : List FileSystemSandboxEntry) (host : LocalHost)
    (cwd root target : NativePath) : Prop where
  located : target.uri.lexicalDepth.isSome = true
  carved : ∀ top access depth,
    Decides ((restricted entries).resolvedEntries (host.context cwd)) target.uri top access depth →
    access ≠ write → ∃ subpath subpathAccess,
      (subpath, subpathAccess) ∈ (restricted entries).resolvedEntriesWithCwd host cwd ∧
      subpathAccess ≠ write ∧ top.location = some subpath.place
  metadata : ∀ directory,
    ((restricted entries).protectedDirs (host.context cwd)).find? target.uri.startsWith
        = some directory →
      overridden ((restricted entries).resolvedEntries (host.context cwd)) target.uri directory
          = true ∨
        ∀ depth, directory.lexicalDepth = some depth → depth ≤ root.components.length + 1

section

variable (h : Writable entries host cwd above)
include h

theorem Writable.comparable_of_location (htarget : target.uri.location = some target.place) :
    FileSystemSandboxPolicy.comparable target.uri (host.context cwd) = true := by
  have hcwd := h.comparable
  have hinfer := (location_eq_some_iff.mp htarget).2.1
  simp only [FileSystemSandboxPolicy.comparable, Bool.and_eq_true] at hcwd ⊢
  refine ⟨⟨⟨hcwd.1.1.1, ?_⟩, ?_⟩, hcwd.2⟩
  · rw [hinfer, h.convention]
    rfl
  · simp [lexicalDepth_eq, htarget]

/-- Some root decides wherever a writable path is above. -/
theorem Writable.exists_decides (htarget : target.uri.location = some target.place)
    (hbelow : target.place.Below above.place) :
    ∃ top access depth, Decides ((restricted entries).resolvedEntries (host.context cwd))
      target.uri top access depth := by
  obtain ⟨-, -, root, depth, hdecides⟩ :=
    (resolveAccess_eq_iff_of_ne_deny rfl (by decide)).mp h.access
  have hinfer := (inferPathConvention_of_mem hdecides.mem).trans h.convention
  exact FileSystemSandboxPolicy.exists_decides hdecides.mem
    (startsWith_of_below htarget h.location hbelow
      (decodesToText_of_posix hinfer) hdecides.covers) hdecides.depth_eq

/-- What decides below a writable path and does not let it be written is not above that path. -/
theorem Writable.not_startsWith_of_decides (htarget : target.uri.location = some target.place)
    (hbelow : target.place.Below above.place) {depth : ℕ}
    (hdecides : Decides ((restricted entries).resolvedEntries (host.context cwd)) target.uri root
      access depth) (haccess : access ≠ write) : above.uri.startsWith root = false := by
  rw [Bool.eq_false_iff]
  intro hcovers
  -- it would decide at that path too
  have habove : Decides ((restricted entries).resolvedEntries (host.context cwd)) above.uri root
      access depth := by
    refine ⟨hdecides.mem, hcovers, hdecides.depth_eq, ?_⟩
    intro other otherAccess otherDepth hother hstarts
    have hinfer := (inferPathConvention_of_mem hother).trans h.convention
    have htext := decodesToText_of_posix hinfer
    exact hdecides.max other otherAccess otherDepth hother
      (startsWith_of_below htarget h.location hbelow htext hstarts)
  have hgranted := h.access
  rw [resolveAccess_of_decides rfl h.comparable h.unambiguous habove] at hgranted
  exact haccess hgranted

end

section

variable {base : NativePath}
  (hfull : (restricted entries).hasFullDiskWriteAccess (some .posix) = false)
  (h : Exposed entries host cwd base path) (habsolute : path.head? = some 47)
  (hspelled : pathByteComponents path = target.components)
  (htarget : target.uri.location = some target.place)
  (hagrees : Agrees entries host cwd base target)
include hfull h habsolute hspelled htarget hagrees

/-- Carve-outs: the root that decides at an exposed path lets it be written. -/
theorem Exposed.access_eq_write {depth : ℕ}
    (hdecides : Decides ((restricted entries).resolvedEntries (host.context cwd)) target.uri root
      access depth) : access = write := by
  by_contra haccess
  have hbase := (canWriteNative_iff hfull).mp h.canWriteRoot
  have hbelow := (pathStartsWith_iff_below hspelled habsolute).mp h.under
  obtain ⟨subpath, subpathAccess, hmem, hsubpathAccess, hlocation⟩ :=
    hagrees.carved root access depth hdecides haccess
  have htext := decodesToText_of_posix
    ((inferPathConvention_of_mem hdecides.mem).trans hbase.convention)
  have hunder := (startsWith_iff_below htarget hlocation htext).mp hdecides.covers
  have hnotAbove := hbase.not_startsWith_of_decides htarget hbelow hdecides haccess
  -- the carve-out is strictly below the writable root
  have hdeeper : base.place.depth < subpath.place.depth := by
    by_contra hdepth
    have hcovers := (startsWith_iff_below hbase.location hlocation htext).mpr
      (hbelow.of_depth_le hunder (not_lt.mp hdepth))
    rw [hnotAbove] at hcovers
    cases hcovers
  have hinside := hunder.of_depth_le hbelow hdeeper.le
  have hne : subpath ≠ base := by
    rintro rfl
    exact lt_irrefl _ hdeeper
  have hstarts : subpath.startsWith base = true := by
    rw [NativePath.startsWith, List.isPrefixOf_iff_prefix]
    exact hinside.2.2
  have hcannot : (restricted entries).canWriteNative host cwd subpath = false := by
    rw [Bool.eq_false_iff]
    intro hcan
    have hsubpath := (canWriteNative_iff hfull).mp hcan
    have hnot := hsubpath.not_startsWith_of_decides htarget hunder hdecides haccess
    rw [(startsWith_iff_below hsubpath.location hlocation htext).mpr (.refl _)] at hnot
    cases hnot
  have hrefused := h.notCarved subpath subpathAccess hmem hsubpathAccess hcannot hne hstarts
  rw [(pathStartsWith_iff_below hspelled habsolute).mpr hunder] at hrefused
  cases hrefused

/-- Metadata: the directory that the policy finds first is overridden. -/
theorem Exposed.overridden
    (hfirst : ((restricted entries).protectedDirs (host.context cwd)).find? target.uri.startsWith
      = some directory) :
    overridden ((restricted entries).resolvedEntries (host.context cwd))
      target.uri directory = true := by
  have hbase := (canWriteNative_iff hfull).mp h.canWriteRoot
  have hbelow := (pathStartsWith_iff_below hspelled habsolute).mp h.under
  have hstarts := find?_some hfirst
  obtain ⟨place, name, hname, hposix, hplace⟩ := exists_location_of_mem_protectedDirs
    hbase.convention htarget (mem_of_find?_eq_some hfirst) hstarts
  set lower : Location := { place with names := place.names ++ [asBytes name] } with hlower
  have htext : directory.decodesToText = true := by
    have hinfer := (location_eq_some_iff.mp hplace).2.1
    exact decodesToText_of_posix (hinfer.trans (by rw [hposix]))
  have hunder := (startsWith_iff_below htarget hplace htext).mp hstarts
  rcases hagrees.metadata directory hfirst with hoverridden | hshallow
  · exact hoverridden
  have hdepth : lower.depth ≤ base.place.depth + 1 :=
    hshallow lower.depth (lexicalDepth_eq_some_iff.mpr ⟨lower, hplace, rfl⟩)
  rcases Nat.lt_or_ge base.place.depth lower.depth with hdeeper | hhigher
  · -- the directory is right below the writable root, which names it unless it can be written
    have hnames : lower.names = base.components ++ [asBytes name] := by
      obtain ⟨rest, hrest⟩ := (hunder.of_depth_le hbelow (by omega)).2.2
      have hlength : lower.depth = place.names.length + 1 := by simp [Location.depth, hlower]
      have hsame : base.place.depth = place.names.length := by omega
      rw [hlower, ← append_inj_left (hrest : _ = place.names ++ _) hsame]
      rfl
    have hhead : ((pathByteComponents path).drop base.components.length).head? =
        some (asBytes name) := by
      rw [hspelled]
      exact hunder.head?_drop hnames
    have hcan : (restricted entries).canWriteNative host cwd (host.join base name) = true := by
      by_contra hcannot
      exact h.notNamed name hname (Bool.eq_false_iff.mpr hcannot) hhead
    have hjoined := (canWriteNative_iff hfull).mp hcan
    have hsame : (host.join base name).place = lower := by
      have hhost : lower.host = none := hunder.1.symm
      have hconvention : lower.convention = .posix := hposix
      rw [NativePath.place, components_join hname, ← hnames, ← hhost, ← hconvention]
    refine hjoined.overridden_of_below htarget (hsame ▸ hunder) hfirst ?_
    rw [startsWith_iff_below hjoined.location hplace htext, hsame]
  · refine hbase.overridden_of_below htarget hbelow hfirst ?_
    exact (startsWith_iff_below hbase.location hplace htext).mpr (hbelow.of_depth_le hunder hhigher)

end

/-- The root that decides at the path is a writable one, and the metadata directory that holds the
path and is found first is overridden. -/
structure Granted (entries : List FileSystemSandboxEntry) (host : LocalHost)
    (cwd target : NativePath) : Prop where
  located : target.uri.lexicalDepth.isSome = true
  decides : ∃ root depth, Decides ((restricted entries).resolvedEntries (host.context cwd))
    target.uri root write depth
  metadata : ∀ directory,
    ((restricted entries).protectedDirs (host.context cwd)).find? target.uri.startsWith
        = some directory →
      overridden ((restricted entries).resolvedEntries (host.context cwd)) target.uri directory
        = true

/-- Next to a writable path, a path can be written exactly if the entries grant it. -/
theorem Writable.iff_granted (h : Writable entries host cwd above) :
    Writable entries host cwd target ↔ Granted entries host cwd target := by
  constructor
  · intro htarget
    obtain ⟨-, -, hdecides⟩ := (resolveAccess_eq_iff_of_ne_deny rfl (by decide)).mp htarget.access
    refine ⟨?_, hdecides, htarget.overridden⟩
    simp [lexicalDepth_eq, htarget.location]
  · rintro ⟨hlocated, ⟨root, depth, hdecides⟩, hmetadata⟩
    have htarget := location_of_lexicalDepth hlocated
    have hcomparable := h.comparable_of_location htarget
    exact ⟨htarget, h.convention, hcomparable, h.unambiguous,
      resolveAccess_of_decides rfl hcomparable h.unambiguous hdecides, hmetadata⟩

theorem Granted.agrees {base : NativePath} (hcomparable : comparable target.uri (host.context cwd))
    (hclear : (restricted entries).Unambiguous (host.context cwd))
    (h : Granted entries host cwd target) : Agrees entries host cwd base target := by
  obtain ⟨root, depth, hdecides⟩ := h.decides
  refine ⟨h.located, ?_, fun directory hfirst => .inl (h.metadata directory hfirst)⟩
  intro top access topDepth htop haccess
  have hwrite := resolveAccess_of_decides rfl hcomparable hclear hdecides
  rw [resolveAccess_of_decides rfl hcomparable hclear htop] at hwrite
  exact absurd hwrite haccess

/-- What some writable root allows, the policy allows. -/
def RootsRespectPolicy (entries : List FileSystemSandboxEntry) (host : LocalHost)
    (cwd : NativePath) (path : List ℕ) : Prop :=
  ∀ writable ∈ (restricted entries).getWritableRootsWithCwd host cwd,
    writable.isPathWritable path = true →
      (restricted entries).canWriteLocalPathWithCwd host path cwd = true

/-- Where an entry exposes a path spelled without `..`, local host and policy agree about the
carve-outs and no writable root further down protects the path; where it exposes a path with `..`,
the entries grant the path that is meant. -/
def ExposesNoMore (entries : List FileSystemSandboxEntry) (host : LocalHost) (cwd : NativePath)
    (path : List ℕ) : Prop :=
  ∀ root, Exposed entries host cwd root path →
    ([46, 46] ∉ pathByteComponents path →
      Agrees entries host cwd root (host.resolveCandidatePath path cwd)) ∧
    ([46, 46] ∈ pathByteComponents path →
      Granted entries host cwd (host.resolveCandidatePath path cwd))

/-- The writable roots allow no more than the policy exactly if the entries expose no more. -/
theorem rootsRespectPolicy_iff (path : List ℕ) :
    RootsRespectPolicy entries host cwd path ↔
      ((restricted entries).hasFullDiskWriteAccess (some .posix) = false →
        ExposesNoMore entries host cwd path) := by
  constructor
  · intro hrespects hfull root hexposed
    have hroot := (canWriteNative_iff hfull).mp hexposed.canWriteRoot
    have hcan := hrespects _ (mem_getWritableRootsWithCwd.mpr
      ⟨hfull, root, hexposed.entry, hexposed.canWriteRoot, rfl⟩)
      ((exposed_iff hexposed.entry hexposed.canWriteRoot).mpr hexposed)
    have hwritable := (canWriteNative_iff hfull).mp hcan
    have hgranted := hroot.iff_granted.mp hwritable
    exact ⟨fun _ => hgranted.agrees hwritable.comparable hwritable.unambiguous, fun _ => hgranted⟩
  · intro hnoMore writable hmem hallowed
    obtain ⟨hfull, root, hentry, hcan, rfl⟩ := mem_getWritableRootsWithCwd.mp hmem
    have hexposed := (exposed_iff hentry hcan).mp hallowed
    have hroot := (canWriteNative_iff hfull).mp hcan
    obtain ⟨hplain, hdotted⟩ := hnoMore hfull root hexposed
    refine (canWriteNative_iff hfull).mpr (hroot.iff_granted.mpr ?_)
    by_cases hdots : [46, 46] ∈ pathByteComponents path
    · exact hdotted hdots
    · have hagrees := hplain hdots
      have habsolute : path.head? = some 47 := by
        have hunder := hexposed.under
        simp only [pathStartsWith, Bool.and_eq_true, decide_eq_true_eq] at hunder
        exact hunder.1
      have hspelled : pathByteComponents path = (host.resolveCandidatePath path cwd).components := by
        rw [LocalHost.resolveCandidatePath, if_pos habsolute]
        exact (foldl_normalizeStep hdots []).symm
      have htarget := location_of_lexicalDepth hagrees.located
      have hbelow := (pathStartsWith_iff_below hspelled habsolute).mp hexposed.under
      obtain ⟨top, access, depth, hdecides⟩ := hroot.exists_decides htarget hbelow
      obtain rfl := hexposed.access_eq_write hfull habsolute hspelled htarget hagrees hdecides
      exact ⟨hagrees.located, ⟨top, depth, hdecides⟩, fun directory hfirst =>
        hexposed.overridden hfull habsolute hspelled htarget hagrees hfirst⟩

omit [UrlHosts] in
/-- With `/a` and `/a/b` writable, the policy keeps the repository data in `/a/b/.git` from being
written, and so does the writable root `/a/b`, but the writable root `/a` does not. -/
theorem not_rootsRespectPolicy_nested :
    let _ : UrlHosts := ⟨some⟩
    let outer : FileSystemSandboxEntry := ⟨.path (ofSegments ["a"]), write, none⟩
    let inner : FileSystemSandboxEntry := ⟨.path (ofSegments ["a", "b"]), write, none⟩
    let host : LocalHost := ⟨fun _ => false, none, none⟩
    let cwd := ofBytes (asBytes "/a".toList)
    let path := asBytes "/a/b/.git/config".toList
    (restricted [outer, inner]).hasFullDiskWriteAccess (some .posix) = false ∧
      ((restricted [outer, inner]).getWritableRootsWithCwd host cwd).any
        (·.isPathWritable path) = true ∧
      (restricted [outer, inner]).canWriteLocalPathWithCwd host path cwd = false ∧
      ¬ RootsRespectPolicy [outer, inner] host cwd path := by
  intro _ outer inner host cwd path
  have hfull : (restricted [outer, inner]).hasFullDiskWriteAccess (some .posix) = false := by decide
  have hallowed : ((restricted [outer, inner]).getWritableRootsWithCwd host cwd).any
      (·.isPathWritable path) = true := by decide
  have hrefused : (restricted [outer, inner]).canWriteLocalPathWithCwd host path cwd = false := by
    decide
  refine ⟨hfull, hallowed, hrefused, ?_⟩
  intro hrespects
  obtain ⟨writable, hmem, hwritable⟩ := any_eq_true.mp hallowed
  rw [hrespects writable hmem hwritable] at hrefused
  cases hrefused

end FileSystemSandboxPolicy

end Codex
