import Codex.Path.WindowsPath
import Codex.Permissions.Policy

/-!
# The order of the entries and the protection of metadata

The access at a path, full-disk access and the overriding of a metadata directory
depend on which entries a policy has, and not on their order.  The metadata directory
that is looked at does depend on it: where writable roots are nested, a path can be in
several metadata directories, and only the one found first is asked whether some entry
overrides it.  A protected directory is then missed exactly if some writable entry puts
an overridden one in front of it.

`protectsMetadata_iff` is exact.  Where the directories of a path agree, all orders of the entries
give one answer (`protectsMetadata_of_forall_perm`); where they do not, the entry that finds an
overridden one is put first, as for the nested roots of `not_protectsMetadata_nested`.
-/

namespace Codex

open Text FileSystemAccessMode List

namespace FileSystemSandboxPolicy

/-! ## What does not depend on the order -/

/-- The same kind and the same entries, in whatever order. -/
structure SameEntries (left right : FileSystemSandboxPolicy) : Prop where
  kind : left.kind = right.kind
  entries : ∀ entry, entry ∈ left.entries ↔ entry ∈ right.entries

variable {left right policy : FileSystemSandboxPolicy} {path directory : PathUri}
  {context : FileSystemSandboxPolicyContext} {entries : List FileSystemSandboxEntry}

theorem SameEntries.hasFullDiskWriteAccess (h : SameEntries left right)
    (convention : Option PathConvention) :
    left.hasFullDiskWriteAccess convention = right.hasFullDiskWriteAccess convention := by
  have hroot : left.hasRootAccess canWrite = right.hasRootAccess canWrite := by
    simp only [hasRootAccess, h.kind]
    rw [any_congr_of_mem_iff _ h.entries]
  have hoverride : left.hasSameTargetWriteOverride = right.hasSameTargetWriteOverride := by
    funext entry convention
    exact any_congr_of_mem_iff _ h.entries
  have hnarrows : left.narrowsWrite = right.narrowsWrite := by
    funext convention entry
    simp only [narrowsWrite, hoverride]
  have hnarrowing : left.hasWriteNarrowingEntries = right.hasWriteNarrowingEntries := by
    funext convention
    simp only [hasWriteNarrowingEntries, h.kind, hnarrows]
    rw [any_congr_of_mem_iff _ h.entries]
  simp only [FileSystemSandboxPolicy.hasFullDiskWriteAccess, h.kind, hroot, hnarrowing]

theorem overridden_eq_true_iff {resolved : List (PathUri × FileSystemAccessMode)} :
    overridden resolved path directory = true ↔
      ∃ root, (root, write) ∈ resolved ∧ path.startsWith root ∧ root.startsWith directory := by
  simp [overridden, canWrite]

variable {entry : FileSystemSandboxEntry}

theorem mem_filter_canWrite :
    entry ∈ (entries.filter fun entry => entry.access.canWrite) ↔
      entry ∈ entries ∧ entry.access = write := by
  simp [canWrite]

section

variable [UrlHosts]

theorem SameEntries.mem_resolvedEntries (h : SameEntries left right)
    (resolved : PathUri × FileSystemAccessMode) :
    resolved ∈ left.resolvedEntries context ↔ resolved ∈ right.resolvedEntries context := by
  simp only [resolvedEntries, mem_flatMap, h.entries]

theorem SameEntries.resolveAccess (h : SameEntries left right) :
    left.resolveAccess path context = right.resolveAccess path context := by
  have hmem : ∀ resolved, resolved ∈ left.resolvedEntries context ↔
      resolved ∈ right.resolvedEntries context := h.mem_resolvedEntries
  have hany := any_congr_of_mem_iff (fun entry => ambiguousRoot entry.1) hmem
  have hrules : ∀ rule, rule ∈ (left.resolvedEntries context).filterMap ruleOf ↔
      rule ∈ (right.resolvedEntries context).filterMap ruleOf := by
    intro rule
    simp only [mem_filterMap, hmem]
  have hgoverning : ((Rule.governing path.startsWith
      ((left.resolvedEntries context).filterMap ruleOf)).map Rule.access) =
      (Rule.governing path.startsWith
        ((right.resolvedEntries context).filterMap ruleOf)).map Rule.access :=
    Rule.governing_access_congr hrules
  simp only [FileSystemSandboxPolicy.resolveAccess, h.kind, rulesOf_eq, hany]
  split_ifs <;> simp only [hgoverning]

theorem SameEntries.overridden (h : SameEntries left right) :
    overridden (left.resolvedEntries context) path directory =
      overridden (right.resolvedEntries context) path directory :=
  any_congr_of_mem_iff _ h.mem_resolvedEntries

/-! ## The metadata directory that is found first -/

/-- A metadata directory directly under a writable root that the path is in. -/
def Protected (policy : FileSystemSandboxPolicy) (path : PathUri)
    (context : FileSystemSandboxPolicyContext) (directory : PathUri) : Prop :=
  path.startsWith directory ∧ ∃ root name, (root, write) ∈ policy.resolvedEntries context ∧
    name ∈ protectedMetadataPathNames ∧ root.joinDescendant name = some directory

/-- The metadata directory found first among the roots of one entry. -/
def firstProtectedDir (path : PathUri) (context : FileSystemSandboxPolicyContext)
    (entry : FileSystemSandboxEntry) : Option PathUri :=
  ((entry.roots context).findSome? (protectedDirOf path)).map Prod.fst

theorem protected_of_firstProtectedDir (hentry : entry ∈ policy.entries)
    (haccess : entry.access = write)
    (hfirst : firstProtectedDir path context entry = some directory) :
    policy.Protected path context directory := by
  obtain ⟨⟨found, name⟩, hfound, rfl⟩ := Option.map_eq_some_iff.mp hfirst
  obtain ⟨root, hroot, hdir⟩ := exists_of_findSome?_eq_some hfound
  obtain ⟨_, _, _, hnames, hfound, -⟩ := findSome?_eq_some_iff.mp hdir
  obtain ⟨joined, hjoined, hpair⟩ := Option.map_eq_some_iff.mp hfound
  obtain ⟨hjoin, hstarts⟩ := Option.filter_eq_some_iff.mp hjoined
  cases hpair
  have hname : name ∈ protectedMetadataPathNames := by simp [hnames]
  exact ⟨hstarts, root, name, mem_resolvedEntries.mpr ⟨entry, hentry, hroot, haccess⟩, hname, hjoin⟩

/-- The directory found first in a list of entries is that of the first entry with one. -/
theorem findSome?_protectedDirOf (entries : List FileSystemSandboxEntry) :
    ((((restricted entries).resolvedEntries context).filter fun entry => entry.2.canWrite).findSome?
        fun entry => protectedDirOf path entry.1).map Prod.fst =
      (entries.filter fun entry => entry.access.canWrite).findSome?
        (firstProtectedDir path context) := by
  induction entries with
  | nil => rfl
  | cons entry rest ih =>
    have hcons : (restricted (entry :: rest)).resolvedEntries context =
        (entry.roots context).map (fun path => (path, entry.access)) ++
          (restricted rest).resolvedEntries context := rfl
    rw [hcons, filter_append, findSome?_append, filter_map]
    simp only [Function.comp_def]
    cases haccess : entry.access.canWrite with
    | true =>
      rw [filter_true, findSome?_map, filter_cons, if_pos haccess, findSome?_cons]
      simp only [firstProtectedDir, Function.comp_def]
      cases (entry.roots context).findSome? fun root => protectedDirOf path root with
      | none => simpa using ih
      | some found => simp
    | false =>
      rw [filter_false, filter_cons_of_neg (by simp [haccess])]
      simpa using ih

/-- The metadata directories of all writable roots, in the order in which they are tried. -/
def protectedDirs (policy : FileSystemSandboxPolicy) (context : FileSystemSandboxPolicyContext) :
    List PathUri :=
  ((policy.resolvedEntries context).filter fun entry => entry.2.canWrite).flatMap fun entry =>
    protectedMetadataPathNames.filterMap entry.1.joinDescendant

theorem map_fst_findSome?_join (root : PathUri) (names : List Str) : (names.findSome? fun name =>
        ((root.joinDescendant name).filter path.startsWith).map (·, name)).map Prod.fst =
      (names.filterMap root.joinDescendant).find? path.startsWith := by
  induction names with
  | nil => rfl
  | cons name rest ih =>
    rw [findSome?_cons, filterMap_cons]
    cases hjoin : root.joinDescendant name with
    | none => simpa using ih
    | some joined =>
      cases hstarts : path.startsWith joined with
      | true => simp [Option.filter, hstarts]
      | false => simpa [Option.filter, hstarts] using ih

/-- The directory found first is the first of all that the path is in. -/
theorem findSome?_firstProtectedDir (entries : List FileSystemSandboxEntry) :
    (entries.filter fun entry => entry.access.canWrite).findSome? (firstProtectedDir path context) =
      ((restricted entries).protectedDirs context).find? path.startsWith := by
  rw [← findSome?_protectedDirOf, protectedDirs]
  induction ((restricted entries).resolvedEntries context).filter fun entry => entry.2.canWrite with
  | nil => rfl
  | cons entry rest ih =>
    rw [flatMap_cons, find?_append, ← ih, ← map_fst_findSome?_join, findSome?_cons]
    unfold protectedDirOf
    cases protectedMetadataPathNames.findSome? fun name =>
        ((entry.1.joinDescendant name).filter path.startsWith).map (·, name) with
    | none => simp
    | some found => simp

/-- The path can be written: the access says so, and the metadata directory found first is
overridden, if there is one. -/
theorem canWritePath_restricted_iff :
    (restricted entries).canWritePath path context = true ↔
      (restricted entries).resolveAccess path context = write ∧
        ((restricted entries).hasFullDiskWriteAccess context.convention = true ∨
          ∀ directory, (entries.filter fun entry => entry.access.canWrite).findSome?
              (firstProtectedDir path context) = some directory →
            overridden ((restricted entries).resolvedEntries context) path directory = true) := by
  have hwrite : ((restricted entries).resolveAccess path context).canWrite = true ↔
      (restricted entries).resolveAccess path context = write := by simp [canWrite]
  rw [canWritePath]
  split_ifs with haccess
  · have hkind : (restricted entries).kind = .restricted := rfl
    rw [Bool.or_eq_true, ← findSome?_protectedDirOf, metadataWriteDenial, if_pos hkind]
    dsimp only
    cases (((restricted entries).resolvedEntries context).filter fun entry =>
        entry.2.canWrite).findSome? fun entry => protectedDirOf path entry.1 with
    | none => simp [hwrite.mp haccess]
    | some found => simp [hwrite.mp haccess]
  · simp [mt hwrite.mpr haccess]

omit [UrlHosts] in
theorem plainName_of_mem {name : Str} (h : name ∈ protectedMetadataPathNames) :
    PathUri.PlainName name := by
  -- each field is decided for all of the names
  constructor
  all_goals
    revert name
    decide

/-- The metadata directories can be joined to a path of either system. -/
theorem plainWindowsName_of_mem {name : Str} (h : name ∈ protectedMetadataPathNames) :
    PathUri.PlainWindowsName name := by
  have hall : ∀ name ∈ protectedMetadataPathNames,
      PathUri.isWindowsRootRelative .windows name = false ∧
      PathUri.pathSegments .windows name = [name] ∧ 92 ∉ Bytes.asBytes name ∧
      Bytes.validUtf8 (Bytes.asBytes name) = true := by decide
  obtain ⟨hbelow, hsingle, hbackslash, htext⟩ := hall name h
  refine ⟨plainName_of_mem h, ?_, ?_, hbelow, hsingle, hbackslash, htext⟩
  all_goals simp only [protectedMetadataPathNames, mem_cons, not_mem_nil, or_false] at h
  · rcases h with rfl | rfl | rfl | rfl <;> rfl
  · rcases h with rfl | rfl | rfl | rfl <;> exact fun _ => rfl

/-! ## When the order can be seen -/

/-- Every metadata directory that the path is in is overridden, or no writable entry finds an
overridden one first. -/
def MetadataAgrees (policy : FileSystemSandboxPolicy) (path : PathUri)
    (context : FileSystemSandboxPolicyContext) : Prop :=
  (∀ directory, policy.Protected path context directory →
      overridden (policy.resolvedEntries context) path directory = true) ∨
    ∀ entry ∈ policy.entries, entry.access = write → ∀ directory,
      firstProtectedDir path context entry = some directory →
        overridden (policy.resolvedEntries context) path directory = false

/-- Reordering the entries does not change the answer, and a path in a metadata directory that no
writable entry overrides is refused. -/
def ProtectsMetadata (entries : List FileSystemSandboxEntry) (path : PathUri)
    (context : FileSystemSandboxPolicyContext) : Prop :=
  (∀ reordered : List FileSystemSandboxEntry, reordered.Perm entries →
      (restricted reordered).canWritePath path context =
        (restricted entries).canWritePath path context) ∧
    ((restricted entries).hasFullDiskWriteAccess context.convention = false →
      ∀ directory, (restricted entries).Protected path context directory →
        (¬ ∃ root, (root, write) ∈ (restricted entries).resolvedEntries context ∧
          path.startsWith root ∧ root.startsWith directory) →
        (restricted entries).canWritePath path context = false)

variable {reordered : List FileSystemSandboxEntry}

/-- Whatever the order, the directory found first is one that the path is in. -/
theorem protected_of_findSome? (hperm : reordered.Perm entries)
    (hfirst : (reordered.filter fun entry => entry.access.canWrite).findSome?
      (firstProtectedDir path context) = some directory) :
    ∃ entry ∈ entries, entry.access = write ∧
      firstProtectedDir path context entry = some directory := by
  obtain ⟨entry, hentry, hdirectory⟩ := exists_of_findSome?_eq_some hfirst
  obtain ⟨hmem, haccess⟩ := mem_filter_canWrite.mp hentry
  exact ⟨entry, hperm.mem_iff.mp hmem, haccess, hdirectory⟩

/-- A path can be written in another order of the entries. -/
theorem canWritePath_perm_iff (hperm : reordered.Perm entries) :
    (restricted reordered).canWritePath path context = true ↔
      (restricted entries).resolveAccess path context = write ∧
        ((restricted entries).hasFullDiskWriteAccess context.convention = true ∨
          ∀ directory, (reordered.filter fun entry => entry.access.canWrite).findSome?
              (firstProtectedDir path context) = some directory →
            overridden ((restricted entries).resolvedEntries context) path directory = true) := by
  have hsame : SameEntries (restricted reordered) (restricted entries) :=
    ⟨rfl, fun _ => hperm.mem_iff⟩
  simp only [canWritePath_restricted_iff, hsame.resolveAccess, hsame.hasFullDiskWriteAccess,
    hsame.overridden]

/-- Where no entry finds an overridden directory first, a path in some directory is refused in
every order. -/
theorem canWritePath_eq_false_of_protected
    (hfull : (restricted entries).hasFullDiskWriteAccess context.convention = false)
    (hnone : ∀ entry ∈ entries, entry.access = write → ∀ directory,
      firstProtectedDir path context entry = some directory →
        overridden ((restricted entries).resolvedEntries context) path directory = false)
    (hprotected : (restricted entries).Protected path context directory)
    (hperm : reordered.Perm entries) :
    (restricted reordered).canWritePath path context = false := by
  -- where the path is in a metadata directory, some writable entry finds one
  obtain ⟨hstarts, root, name, hroot, hname, hjoin⟩ := hprotected
  obtain ⟨entry, hentry, hmem, hwrite⟩ := mem_resolvedEntries.mp hroot
  have hfirst : (firstProtectedDir path context entry).isSome := by
    rw [firstProtectedDir, Option.isSome_map, findSome?_isSome_iff]
    refine ⟨root, hmem, ?_⟩
    rw [protectedDirOf, findSome?_isSome_iff]
    exact ⟨name, hname, by simp [hjoin, hstarts]⟩
  have hsome : ((reordered.filter fun entry => entry.access.canWrite).findSome?
      (firstProtectedDir path context)).isSome := by
    rw [findSome?_isSome_iff]
    exact ⟨entry, mem_filter_canWrite.mpr ⟨hperm.mem_iff.mpr hentry, hwrite⟩, hfirst⟩
  obtain ⟨found, hfound⟩ := Option.isSome_iff_exists.mp hsome
  obtain ⟨finder, hfinder, hfinderWrite, hdirectory⟩ := protected_of_findSome? hperm hfound
  rw [Bool.eq_false_iff]
  intro hcan
  rcases ((canWritePath_perm_iff hperm).mp hcan).2 with hdisk | hfirsts
  · rw [hfull] at hdisk
    cases hdisk
  · have htrue := hfirsts found hfound
    rw [hnone finder hfinder hfinderWrite found hdirectory] at htrue
    cases htrue

/-- One answer in every order, and a positive one only where nothing protected is left. -/
theorem protectsMetadata_of_forall_perm {answer : Bool}
    (hanswer : ∀ reordered : List FileSystemSandboxEntry, reordered.Perm entries →
      (restricted reordered).canWritePath path context = answer)
    (hdenies : answer = true →
      (restricted entries).hasFullDiskWriteAccess context.convention = true ∨
        ∀ directory, (restricted entries).Protected path context directory →
          overridden ((restricted entries).resolvedEntries context) path directory = true) :
    ProtectsMetadata entries path context := by
  have hself := hanswer entries (List.Perm.refl _)
  refine ⟨fun reordered hperm => by rw [hanswer reordered hperm, hself], ?_⟩
  intro hfull directory hprotected hnot
  rw [hself, Bool.eq_false_iff]
  intro htrue
  rcases hdenies htrue with hdisk | hall
  · rw [hfull] at hdisk
    cases hdisk
  · exact hnot (overridden_eq_true_iff.mp (hall directory hprotected))

/-- The order of the entries is not seen, and metadata is protected, exactly if the path is not
writable anyway, everything is, or the metadata directories of the path agree. -/
theorem protectsMetadata_iff (entries : List FileSystemSandboxEntry) (path : PathUri)
    (context : FileSystemSandboxPolicyContext) :
    ProtectsMetadata entries path context ↔
      ((restricted entries).resolveAccess path context = write →
        (restricted entries).hasFullDiskWriteAccess context.convention = false →
        (restricted entries).MetadataAgrees path context) := by
  constructor
  · rintro ⟨horder, hdenies⟩ haccess hfull
    by_contra hdisagree
    obtain ⟨hnotAll, hnotNone⟩ := not_or.mp hdisagree
    push Not at hnotAll hnotNone
    obtain ⟨directory, hprotected, hnot⟩ := hnotAll
    obtain ⟨entry, hentry, hwrite, first, hfirst, hover⟩ := hnotNone
    have hover : overridden ((restricted entries).resolvedEntries context) path first = true := by
      simpa using hover
    -- the entry that finds an overridden directory goes to the front
    have hperm : (entry :: entries.erase entry).Perm entries := (perm_cons_erase hentry).symm
    have hallowed : (restricted (entry :: entries.erase entry)).canWritePath path context = true := by
      refine (canWritePath_perm_iff hperm).mpr ⟨haccess, .inr fun found hfound => ?_⟩
      rw [filter_cons, if_pos (by simp [canWrite, hwrite]), findSome?_cons, hfirst] at hfound
      exact Option.some_inj.mp hfound ▸ hover
    have hrefused := hdenies hfull directory hprotected (mt overridden_eq_true_iff.mpr hnot)
    rw [horder _ hperm, hrefused] at hallowed
    cases hallowed
  · intro hcondition
    by_cases haccess : (restricted entries).resolveAccess path context = write
    · by_cases hfull : (restricted entries).hasFullDiskWriteAccess context.convention = true
      · exact protectsMetadata_of_forall_perm
          (fun _ hperm => (canWritePath_perm_iff hperm).mpr ⟨haccess, .inl hfull⟩)
          fun _ => .inl hfull
      · by_cases hall : ∀ directory, (restricted entries).Protected path context directory →
            overridden ((restricted entries).resolvedEntries context) path directory = true
        · refine protectsMetadata_of_forall_perm (fun _ hperm => (canWritePath_perm_iff hperm).mpr
            ⟨haccess, .inr fun directory hfirst => ?_⟩) fun _ => .inr hall
          obtain ⟨entry, hentry, hwrite, hdirectory⟩ := protected_of_findSome? hperm hfirst
          exact hall directory (protected_of_firstProtectedDir hentry hwrite hdirectory)
        · have hfalse := Bool.eq_false_iff.mpr hfull
          have hnone := (hcondition haccess hfalse).resolve_left hall
          push Not at hall
          obtain ⟨directory, hprotected, -⟩ := hall
          exact protectsMetadata_of_forall_perm
            (fun _ hperm => canWritePath_eq_false_of_protected hfalse hnone hprotected hperm)
            (by rintro ⟨⟩)
    · exact protectsMetadata_of_forall_perm (fun _ hperm => Bool.eq_false_iff.mpr fun hcan =>
        haccess ((canWritePath_perm_iff hperm).mp hcan).1) (by rintro ⟨⟩)

end

open PathUri in
/-- With `/a` and `/a/.git/sub` writable, a file in `/a/.git/sub/.git` can be written in one order
of the two entries only. -/
theorem not_protectsMetadata_nested :
    let _ : UrlHosts := ⟨some⟩
    let outer : FileSystemSandboxEntry := ⟨.path (ofSegments ["a"]), write, none⟩
    let inner : FileSystemSandboxEntry := ⟨.path (ofSegments ["a", ".git", "sub"]), write, none⟩
    let path := ofSegments ["a", ".git", "sub", ".git", "config"]
    let context : FileSystemSandboxPolicyContext := ⟨ofSegments ["a"], [], none, none⟩
    (restricted [outer, inner]).canWritePath path context = true ∧
      (restricted [inner, outer]).canWritePath path context = false ∧
      ¬ ProtectsMetadata [outer, inner] path context := by
  intro _ outer inner path context
  have hallowed : (restricted [outer, inner]).canWritePath path context = true := by decide
  have hrefused : (restricted [inner, outer]).canWritePath path context = false := by decide
  refine ⟨hallowed, hrefused, ?_⟩
  rintro ⟨horder, -⟩
  have heq := horder [inner, outer] (List.Perm.swap outer inner [])
  rw [hallowed, hrefused] at heq
  cases heq

end FileSystemSandboxPolicy

end Codex
