import Codex.Path.WindowsPath
import Codex.Permissions.DenyRead
import Codex.Permissions.Placement

/-!
# The policy of an approved command

A command that the user has approved may write everywhere except where the policy denies
access.  The denials are kept, those that are relative to the workspace are turned into
paths, and the root of the file system and its metadata directories are granted.  Where a
denial cannot be resolved, or denies the root itself, the policy stays as it is.
-/

namespace Codex

open Text Bytes FileSystemAccessMode FileSystemSandboxEntry

/-! ## Entries relative to the workspace -/

/-- `PROJECT_ROOTS_GLOB_PATTERN_PREFIX`. -/
def projectRootsGlobScheme : Str := "codex-project-roots://".toList

/-- What follows the `~` of a path below the home directory. -/
def PathConvention.homeRelativeSuffix (convention : PathConvention) (path : Str) : Option Str :=
  (stripPrefix ['~'] path).filter fun suffix =>
    suffix = [] || suffix.head? = some '/' || (convention = .windows && suffix.head? = some '\\')

/-- The part below a workspace root, and whether it is a glob; other paths have none. -/
def FileSystemPath.workspaceScope : FileSystemPath → Option (Option Str × Bool)
  | special (.projectRoots subpath) => some (subpath, false)
  | globPattern pattern =>
    (stripPrefix projectRootsGlobScheme pattern).map fun subpath => (some subpath, true)
  | _ => none

section

variable [UrlHosts]

/-- A path that stays within the workspace root, in the convention of the root. -/
def resolveScopedWorkspacePath (root : PathUri) (subpath : Str) : Option PathUri := do
  let convention ← root.inferPathConvention
  let segments := PathUri.pathSegments convention subpath
  if subpath.head? = some '/' || (convention = .windows && subpath.head? = some '\\') ||
      segments.any PathUri.isDots ||
      (convention = .windows && segments.any fun segment => segment.contains ':') then none
  else (root.join subpath).filter fun path => path.startsWith root

variable [DenyGlobs]

/-- The entry at one workspace root.  What cannot be resolved denies the whole root, unless it
would grant a write. -/
def FileSystemSandboxEntry.materializeAt (entry : FileSystemSandboxEntry) (subpath : Option Str)
    (isGlob : Bool) (root : PathUri) : Option FileSystemSandboxEntry :=
  let path :=
    if isGlob && root.inferPathConvention.all fun convention =>
        !(DenyGlobs.validateGlobDirectory root convention).isOk then none
    else
      match subpath with
      | none => some root
      | some subpath => resolveScopedWorkspacePath root subpath
  match path with
  | some path =>
    some ⟨if isGlob then .globPattern (DenyGlobs.nativeString path) else .path path,
      entry.access, entry.missingPathBehavior⟩
  | none =>
    if entry.access.canWrite then none
    else some ⟨.path root, deny, entry.missingPathBehavior⟩

/-- A denial below the home directory is not materialised at all. -/
def FileSystemSandboxEntry.materializeProjectRoots (workspaceRoots : List PathUri)
    (entry : FileSystemSandboxEntry) : Option (List FileSystemSandboxEntry) :=
  match entry.path.workspaceScope with
  | none => some [entry]
  | some (subpath, isGlob) =>
    if entry.access = deny && subpath.any fun subpath => workspaceRoots.any fun root =>
        root.inferPathConvention.any fun convention =>
          (convention.homeRelativeSuffix subpath).isSome then none
    else some (workspaceRoots.filterMap (entry.materializeAt subpath isGlob))

namespace FileSystemSandboxPolicy

/-- `try_materialize_project_roots_with_path_uris`. -/
def tryMaterializeProjectRoots (policy : FileSystemSandboxPolicy) (workspaceRoots : List PathUri) :
    Option FileSystemSandboxPolicy :=
  (policy.entries.mapM (materializeProjectRoots workspaceRoots)).map
    fun entries => { policy with entries := entries.flatten }

end FileSystemSandboxPolicy

end

/-! ## The matcher for the retained denials -/

/-- `INVALID_PATH`. -/
def invalidPath : Str := "managed filesystem denial cannot be materialized safely".toList

def validContextPath (convention : PathConvention) (path : PathUri) : Bool :=
  path.inferPathConvention = some convention && path.lexicalDepth.isSome

section

variable [UrlHosts]

/-- An entry that the executor could not resolve safely is an error. -/
def validateContextEntry (context : FileSystemSandboxPolicyContext) (convention : PathConvention)
    (entry : FileSystemSandboxEntry) : Except Str Unit :=
  match entry.path with
  | .path path => if validContextPath convention path then .ok () else .error invalidPath
  | .special .tmpdir =>
    match context.temporaryDirectories with
    | none =>
      .error ("executor temporary-directory metadata is unavailable for managed " ++
        "filesystem denials").toList
    | some directories =>
      if directories.all (validContextPath convention) then .ok ()
      else .error "executor temporary-directory metadata cannot be materialized safely".toList
  | .special (.projectRoots (some subpath)) =>
    if context.workspaceRoots.any fun root => (root.join subpath).isNone then .error invalidPath
    else .ok ()
  | .globPattern pattern =>
    if ((stripPrefix "~/".toList pattern).isSome ||
        (convention = .windows && (stripPrefix "~\\".toList pattern).isSome)) &&
        !context.userHomeDir.any (validContextPath convention) then .error invalidPath
    else .ok ()
  | _ => .ok ()

def validateContextPaths (policy : FileSystemSandboxPolicy)
    (context : FileSystemSandboxPolicyContext) : Except Str Unit :=
  match context.convention with
  | none => .error invalidPath
  | some convention =>
    if (context.cwd :: context.workspaceRoots).all (validContextPath convention) then
      policy.entries.forM (validateContextEntry context convention)
    else .error invalidPath

variable [DenyGlobs] (policy : FileSystemSandboxPolicy) (context : FileSystemSandboxPolicyContext)

/-- `ReadDenyMatcher::try_new_with_context`. -/
def tryNewWithContext : Except Str (Option PreparedReadDenyMatcher) :=
  if policy.hasContextReadDenials context then do
    validateContextPaths policy context
    (policy.prepareDenyReadMatcher context .returnError).map some
  else .ok none

/-! ## The approved policy -/

def writeEntry (path : FileSystemPath) : FileSystemSandboxEntry := ⟨path, write, none⟩

def grantRoot : FileSystemSandboxPolicy := .restricted [writeEntry (.special .root)]

/-- `preserve_deny_read_restrictions_from`. -/
def FileSystemSandboxPolicy.preserveDenyReadRestrictionsFrom (existing : FileSystemSandboxPolicy) :
    FileSystemSandboxPolicy :=
  let denials := existing.entries.filter fun entry => entry.access = deny
  let policy := if policy.kind = .unrestricted ∧ denials ≠ [] then grantRoot else policy
  if policy.kind = .restricted then { policy with entries := denials.foldl pushNew policy.entries }
  else policy

section

variable (matcher : Option PreparedReadDenyMatcher) (context : FileSystemSandboxPolicyContext)

/-- The matcher denies the path. -/
def isReadDenied (path : PathUri) : Bool :=
  matcher.any (FileSystemSandboxPolicy.matchesPreparedReadDeny path context)

/-- One metadata directory of the root is granted, unless it is denied. -/
def grantMetadata (root : PathUri) (entries : List FileSystemSandboxEntry) (name : Str) :
    Option (List FileSystemSandboxEntry) := do
  let path ← root.joinDescendant name
  return if isReadDenied matcher context path then entries else entries ++ [writeEntry (.path path)]

end

/-- The policy for the approved command; `none` where the original one is kept. -/
def FileSystemSandboxPolicy.approveCommand : Option FileSystemSandboxPolicy := do
  let approved := grantRoot.preserveDenyReadRestrictionsFrom policy
  if context.workspaceRoots.isEmpty &&
      approved.entries.any fun entry => entry.path.workspaceScope.isSome then none
  else
    let approved ← approved.tryMaterializeProjectRoots context.workspaceRoots
    let root ← fileSystemRoot context
    let matcher ← (tryNewWithContext approved context).toOption
    if !(approved.resolveAccess root context).canWrite || isReadDenied matcher context root then none
    else
      let entries ←
        protectedMetadataPathNames.foldlM (grantMetadata matcher context root) approved.entries
      return { approved with entries }

def FileSystemSandboxPolicy.forApprovedCommand : FileSystemSandboxPolicy :=
  if policy.kind = .restricted then (policy.approveCommand context).getD policy else policy

end

/-! ## What is materialised -/

namespace FileSystemSandboxPolicy

variable [UrlHosts] [DenyGlobs] {policy base : FileSystemSandboxPolicy}
  {context : FileSystemSandboxPolicyContext} {workspaceRoots : List PathUri}
  {entry kept : FileSystemSandboxEntry}

/-- The denials of the policy alone. -/
def retainedDenials (policy : FileSystemSandboxPolicy) : FileSystemSandboxPolicy :=
  { policy with entries := policy.entries.filter fun entry => entry.access = deny }

theorem tryMaterializeProjectRoots_spec
    (h : policy.tryMaterializeProjectRoots workspaceRoots = some base) :
    base.kind = policy.kind ∧
      (∀ entry ∈ policy.entries, (entry.materializeProjectRoots workspaceRoots).isSome = true) ∧
      ∀ entry, entry ∈ base.entries ↔ ∃ source ∈ policy.entries,
        ∃ out, source.materializeProjectRoots workspaceRoots = some out ∧ entry ∈ out := by
  obtain ⟨lists, hlists, rfl⟩ := Option.map_eq_some_iff.mp h
  obtain ⟨hsome, hmem⟩ := mapM_eq_some_spec hlists
  exact ⟨rfl, hsome, hmem⟩

/-- A denial stays a denial. -/
theorem access_of_mem_materialize {out : List FileSystemSandboxEntry} (hdeny : entry.access = deny)
    (h : entry.materializeProjectRoots workspaceRoots = some out) (hkept : kept ∈ out) :
    kept.access = deny := by
  unfold materializeProjectRoots at h
  split at h
  · obtain rfl := Option.some_inj.mp h
    obtain rfl := List.mem_singleton.mp hkept
    exact hdeny
  · split_ifs at h
    obtain rfl := Option.some_inj.mp h
    obtain ⟨root, -, hroot⟩ := List.mem_filterMap.mp hkept
    unfold materializeAt at hroot
    dsimp only at hroot
    split at hroot
    · obtain rfl := Option.some_inj.mp hroot
      exact hdeny
    · split_ifs at hroot
      obtain rfl := Option.some_inj.mp hroot
      rfl

omit [UrlHosts] [DenyGlobs] in
/-- An entry relative to the workspace equals only itself. -/
theorem eq_of_same_of_workspaceScope {scope : Option Str × Bool} (hsame : kept.same entry = true)
    (h : entry.path.workspaceScope = some scope) : kept = entry := by
  simp only [same] at hsame
  have hpaths : kept.path = entry.path := by
    cases hentry : entry.path with
    | path uri =>
      rw [hentry] at h
      cases h
    | globPattern pattern | special value =>
      cases hkept : kept.path <;> simp_all [FileSystemPath.same]
  cases kept
  cases entry
  simp_all

/-- Equal entries are materialised alike: to the same entries, or each to itself. -/
theorem materializeProjectRoots_of_same (hsame : kept.same entry = true) :
    kept = entry ∨ kept.materializeProjectRoots workspaceRoots = some [kept] ∧
      entry.materializeProjectRoots workspaceRoots = some [entry] := by
  cases hscope : entry.path.workspaceScope with
  | some scope => exact .inl (eq_of_same_of_workspaceScope hsame hscope)
  | none =>
    cases hkept : kept.path.workspaceScope with
    | some scope =>
      have hback : entry.same kept = true := by
        simp only [same, Bool.and_eq_true, decide_eq_true_eq] at hsame ⊢
        obtain ⟨⟨hpath, haccess⟩, hmissing⟩ := hsame
        refine ⟨⟨?_, haccess.symm⟩, hmissing.symm⟩
        cases hentry : entry.path <;> cases hpaths : kept.path <;>
          simp_all [FileSystemPath.same]
        exact PathUri.same_symm hpath
      rw [eq_of_same_of_workspaceScope hback hkept]
      exact .inl rfl
    | none =>
      right
      unfold materializeProjectRoots
      rw [hscope, hkept]
      exact ⟨rfl, rfl⟩

end FileSystemSandboxPolicy

end Codex
