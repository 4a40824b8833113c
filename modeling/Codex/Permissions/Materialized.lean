import Codex.Permissions.Approved

/-!
# Materialising the rules of the workspace

Entries relative to the workspace become concrete ones.  A rule that cannot be resolved inside its
root is dropped if it grants a write, and else denies the whole root instead; then the place that
it named is left to the grants around it, which may be wider (`materialize_escapes`).  If every
such rule resolves inside its root, no access is widened: every resolved entry that does not deny
was there before, and what is lost are grants.  A denial below the home directory that cannot be
resolved is not moved: then nothing at all is granted.

`resolveAccess_materialized_le` says so for every restricted policy, context and path.
-/

namespace Codex

open FileSystemAccessMode FileSystemSandboxEntry List FileSystemPath

/-- What an access lets a process do: less than another means less can be done. -/
def FileSystemAccessMode.capability : FileSystemAccessMode → ℕ
  | deny => 0
  | read => 1
  | write => 2

namespace FileSystemSandboxPolicy

section

variable [UrlHosts]

def materializeProjectRootsWithPathUris [DenyGlobs] (policy : FileSystemSandboxPolicy)
    (workspaceRoots : List PathUri) : FileSystemSandboxPolicy :=
  (policy.tryMaterializeProjectRoots workspaceRoots).getD (.restricted [])

/-- The rules below the workspace roots resolve inside them.  A grant of write may also lead to
another path that has a place. -/
def Scoped (policy : FileSystemSandboxPolicy) (context : FileSystemSandboxPolicyContext) : Prop :=
  ∀ entry ∈ policy.entries, ∀ subpath, entry.path = .special (.projectRoots (some subpath)) →
    ∀ root ∈ context.workspaceRoots, ∀ path, root.join subpath = some path →
      path.inferPathConvention = context.convention →
      (resolveScopedWorkspacePath root subpath).isSome = true ∨
        entry.access = write ∧ ambiguousRoot path = false

/-- The path that a rule below a workspace root stands for. -/
def belowRoot (root : PathUri) : Option Str → Option PathUri
  | some subpath => root.join subpath
  | none => some root

variable {root path : PathUri} {context : FileSystemSandboxPolicyContext}
  {entry : FileSystemSandboxEntry} {subpath : Option Str}

theorem join_of_resolveScoped {subpath : Str}
    (h : resolveScopedWorkspacePath root subpath = some path) : root.join subpath = some path := by
  obtain ⟨convention, -, h⟩ := Option.bind_eq_some_iff.mp h
  dsimp only at h
  split_ifs at h
  exact (Option.filter_eq_some_iff.mp h).1

theorem mem_roots_path {access : FileSystemAccessMode} {behavior : Option MissingPathBehavior} :
    path ∈ roots context ⟨.path root, access, behavior⟩ ↔
      path = root ∧ path.inferPathConvention = context.convention := by
  rw [roots, mem_filter, resolve, mem_singleton, decide_eq_true_eq]

omit [UrlHosts] in
theorem path_of_workspaceScope (h : entry.path.workspaceScope = some (subpath, false)) :
    entry.path = .special (.projectRoots subpath) := by
  cases hpath : entry.path with
  | path uri | globPattern pattern => simp [hpath, workspaceScope] at h
  | special value => cases value <;> simp_all [workspaceScope]

theorem roots_of_glob (h : entry.path.workspaceScope = some (subpath, true)) :
    entry.roots context = [] := by
  cases hpath : entry.path with
  | path uri => simp [hpath, workspaceScope] at h
  | globPattern pattern => simp [roots, hpath, resolve]
  | special value => cases value <;> simp_all [workspaceScope]

theorem mem_roots_projectRoots (h : entry.path = .special (.projectRoots subpath)) :
    path ∈ entry.roots context ↔ (∃ root ∈ context.workspaceRoots,
      belowRoot root subpath = some path) ∧ path.inferPathConvention = context.convention := by
  rw [roots, h, mem_filter, resolve, FileSystemSpecialPath.resolve,
    mem_filterMap, decide_eq_true_eq]
  cases subpath <;> rfl

variable [DenyGlobs]

/-- What an entry stands for before and after: only denials are new, and only rules that do not
resolve inside their root are lost. -/
theorem roots_materialized {out : List FileSystemSandboxEntry}
    (h : entry.materializeProjectRoots context.workspaceRoots = some out) :
    (∀ kept ∈ out, ∀ path ∈ kept.roots context,
      kept.access = deny ∨ path ∈ entry.roots context ∧ kept.access = entry.access) ∧
    ∀ path ∈ entry.roots context,
      (∃ kept ∈ out, path ∈ kept.roots context ∧ kept.access = entry.access) ∨
        ∃ subpath, entry.path = .special (.projectRoots (some subpath)) ∧
          ∃ root ∈ context.workspaceRoots, root.join subpath = some path ∧
            resolveScopedWorkspacePath root subpath = none := by
  unfold materializeProjectRoots at h
  split at h
  next =>
    obtain rfl := Option.some_inj.mp h
    refine ⟨?_, fun path hpath => .inl ⟨entry, mem_singleton_self _, hpath, rfl⟩⟩
    intro kept hkept path hpath
    obtain rfl := mem_singleton.mp hkept
    exact .inr ⟨hpath, rfl⟩
  next subpath isGlob hscope =>
    split_ifs at h
    obtain rfl := Option.some_inj.mp h
    constructor
    · intro kept hkept path hpath
      obtain ⟨root, hroot, hat⟩ := mem_filterMap.mp hkept
      unfold materializeAt at hat
      dsimp only at hat
      split at hat
      next resolved hresolved =>
        obtain rfl := Option.some_inj.mp hat
        cases isGlob with
        | true => cases hpath
        | false =>
          obtain ⟨rfl, hconvention⟩ := mem_roots_path.mp hpath
          refine .inr ⟨(mem_roots_projectRoots (path_of_workspaceScope hscope)).mpr
            ⟨⟨root, hroot, ?_⟩, hconvention⟩, rfl⟩
          cases subpath with
          | none => exact hresolved
          | some subpath => exact join_of_resolveScoped hresolved
      next =>
        split_ifs at hat
        obtain rfl := Option.some_inj.mp hat
        exact .inl rfl
    · intro path hpath
      obtain rfl : isGlob = false := by
        by_contra hglob
        rw [Bool.eq_true_of_not_eq_false hglob] at hscope
        rw [roots_of_glob hscope] at hpath
        cases hpath
      have hspecial := path_of_workspaceScope hscope
      obtain ⟨⟨root, hroot, hbelow⟩, hconvention⟩ := (mem_roots_projectRoots hspecial).mp hpath
      have hkept : entry.materializeAt subpath false root =
          some ⟨.path path, entry.access, entry.missingPathBehavior⟩ →
          ∃ kept ∈ context.workspaceRoots.filterMap (entry.materializeAt subpath false),
            path ∈ kept.roots context ∧ kept.access = entry.access := fun hat =>
        ⟨_, mem_filterMap.mpr ⟨root, hroot, hat⟩, mem_roots_path.mpr ⟨rfl, hconvention⟩, rfl⟩
      cases subpath with
      | none =>
        obtain rfl := Option.some_inj.mp hbelow
        exact .inl (hkept rfl)
      | some subpath =>
        cases hinside : resolveScopedWorkspacePath root subpath with
        | some inside =>
          obtain rfl := Option.some_inj.mp (hbelow.symm.trans (join_of_resolveScoped hinside))
          exact .inl (hkept (by simp [materializeAt, hinside]))
        | none => exact .inr ⟨subpath, hspecial, root, hroot, hbelow, hinside⟩

/-- Materialising the rules of the workspace widens no access, whenever it grants nothing at all or the
rules below the workspace roots resolve inside them. -/
theorem resolveAccess_materialized_le (policy : FileSystemSandboxPolicy)
    (context : FileSystemSandboxPolicyContext) (path : PathUri)
    (hkind : policy.kind = .restricted)
    (hplaced : policy.tryMaterializeProjectRoots context.workspaceRoots = none ∨
      policy.Scoped context) :
    ((policy.materializeProjectRootsWithPathUris context.workspaceRoots).resolveAccess path
      context).capability ≤ (policy.resolveAccess path context).capability := by
  unfold materializeProjectRootsWithPathUris
  cases hbase : policy.tryMaterializeProjectRoots context.workspaceRoots with
  | none =>
    have hdeny : (restricted []).resolveAccess path context = deny := by
      by_contra hgranted
      obtain ⟨-, -, root, depth, hdecides⟩ := (resolveAccess_eq_iff_of_ne_deny rfl hgranted).mp rfl
      exact not_mem_nil hdecides.mem
    rw [Option.getD_none, hdeny]
    exact Nat.zero_le _
  | some base =>
    have hscoped := hplaced.resolve_left (by simp [hbase])
    rw [Option.getD_some]
    by_cases hdeny : base.resolveAccess path context = deny
    · rw [hdeny]
      exact Nat.zero_le _
    have hbaseKind := (tryMaterializeProjectRoots_spec hbase).1.trans hkind
    obtain ⟨hcomparable, hclear, root, depth, hdecides⟩ :=
      (resolveAccess_eq_iff_of_ne_deny hbaseKind hdeny).mp rfl
    have hspec := (tryMaterializeProjectRoots_spec hbase).2
    have hold : (root, base.resolveAccess path context) ∈ policy.resolvedEntries context := by
      obtain ⟨kept, hkept, hroot, haccess⟩ := mem_resolvedEntries.mp hdecides.mem
      obtain ⟨entry, hentry, out, hout, hmem⟩ := (hspec.2 kept).mp hkept
      rcases (roots_materialized hout).1 kept hmem root hroot with hdenied | ⟨hentryRoot, hsame⟩
      · exact absurd (haccess.symm.trans hdenied) hdeny
      · exact mem_resolvedEntries.mpr ⟨entry, hentry, hentryRoot, hsame.symm.trans haccess⟩
    have hlost : ∀ other otherAccess, (other, otherAccess) ∈ policy.resolvedEntries context →
        (other, otherAccess) ∈ base.resolvedEntries context ∨
          otherAccess = write ∧ ambiguousRoot other = false := by
      intro other otherAccess hother
      obtain ⟨entry, hentry, hroot, rfl⟩ := mem_resolvedEntries.mp hother
      obtain ⟨out, hout⟩ := Option.isSome_iff_exists.mp (hspec.1 entry hentry)
      rcases (roots_materialized hout).2 other hroot with
        ⟨kept, hkept, hkeptRoot, hsame⟩ | ⟨subpath, hpath, root, hworkspace, hjoin, hnone⟩
      · exact .inl (mem_resolvedEntries.mpr
          ⟨kept, (hspec.2 kept).mpr ⟨entry, hentry, out, hout, hkept⟩, hkeptRoot, hsame⟩)
      · refine .inr ((hscoped entry hentry subpath hpath root hworkspace other hjoin
          (inferPathConvention_of_mem hother)).resolve_left ?_)
        simp [hnone]
    have hunambiguous : policy.Unambiguous context := by
      rintro ⟨other, otherAccess⟩ hother
      rcases hlost other otherAccess hother with hmem | ⟨-, hplace⟩
      · exact hclear _ hmem
      · exact hplace
    obtain ⟨top, topAccess, topDepth, htop⟩ :=
      exists_decides hold hdecides.covers hdecides.depth_eq
    rw [resolveAccess_of_decides hkind hcomparable hunambiguous htop]
    rcases hlost top topAccess htop.mem with hmem | ⟨rfl, -⟩
    · -- both roots decide in both policies, so that they give the same access
      have hle := hdecides.max _ _ _ hmem htop.covers htop.depth_eq
      have hge := htop.max _ _ _ hold hdecides.covers hdecides.depth_eq
      have heq : topAccess = base.resolveAccess path context := by
        apply le_antisymm
        · exact (hle.resolve_left (by omega)).2
        · exact (hge.resolve_left (by omega)).2
      rw [heq]
    · cases base.resolveAccess path context <;> simp [capability]

end

/-- All may be written, except for a place that is named relative to the workspace. -/
def allExcept (subpath : String) : FileSystemSandboxPolicy :=
  restricted [writeEntry (.special .root),
    ⟨.special (.projectRoots (some subpath.toList)), deny, none⟩]

def inWork : FileSystemSandboxPolicyContext :=
  ⟨.ofSegments ["work"], [.ofSegments ["work"]], none, none⟩

/-- A denial inside the workspace stays where it is, and one below the home directory denies all. -/
theorem resolveAccess_materialized_le_work :
    let _ : UrlHosts := ⟨some⟩
    let _ : DenyGlobs := noGlobs
    let policy := allExcept "secret"
    let atHome := allExcept "~/x"
    let path := PathUri.ofSegments ["work", "secret", "key"]
    policy.Scoped inWork ∧
      ((policy.materializeProjectRootsWithPathUris inWork.workspaceRoots).resolveAccess path
        inWork).capability ≤ (policy.resolveAccess path inWork).capability ∧
      atHome.tryMaterializeProjectRoots inWork.workspaceRoots = none ∧
      ((atHome.materializeProjectRootsWithPathUris inWork.workspaceRoots).resolveAccess path
        inWork).capability ≤ (atHome.resolveAccess path inWork).capability := by
  intro _ _ policy atHome path
  have hscoped : policy.Scoped inWork := by
    intro entry hentry subpath hpath root hroot _ _ _
    left
    obtain rfl := mem_singleton.mp hroot
    rcases mem_cons.mp hentry with rfl | hentry
    · cases hpath
    · obtain rfl := mem_singleton.mp hentry
      cases hpath
      decide
  have hnone : atHome.tryMaterializeProjectRoots inWork.workspaceRoots = none := by decide
  exact ⟨hscoped, resolveAccess_materialized_le policy inWork path rfl (.inr hscoped),
    hnone, resolveAccess_materialized_le atHome inWork path rfl (.inl hnone)⟩

/-- A denial of `../secret` goes to the workspace root, and the place that it named is granted. -/
theorem materialize_escapes :
    let _ : UrlHosts := ⟨some⟩
    let _ : DenyGlobs := noGlobs
    let policy := allExcept "../secret"
    let path := PathUri.ofSegments ["secret", "key"]
    policy.resolveAccess path inWork = deny ∧
      (policy.materializeProjectRootsWithPathUris inWork.workspaceRoots).resolveAccess path
        inWork = write := by
  decide

end FileSystemSandboxPolicy

end Codex
