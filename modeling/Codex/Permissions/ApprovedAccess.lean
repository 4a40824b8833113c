import Codex.Permissions.Approved
import Codex.Permissions.MetadataOrder

/-!
# What an approved command may write

No grant of the approved policy lies at or below a denied root: the root of the file
system and its metadata directories are granted only where no denial covers them.  So a
denial that covers a path is always deeper than the grants that cover it, and the path is
denied; every other path below the root of the file system can be written.

A metadata directory that a deny glob matches is not granted.  Globs do not take part in
the access at a path, so the access inside it is still that of the root, but the
protection of metadata refuses the write.
-/

namespace Codex

open Text Bytes FileSystemAccessMode PathUri List

namespace FileSystemSandboxPolicy

variable [UrlHosts] [DenyGlobs] {policy base approved denied : FileSystemSandboxPolicy}
  {context : FileSystemSandboxPolicyContext} {root path directory denial : PathUri}
  {matcher : Option PreparedReadDenyMatcher}

/-! ## A successful approval -/

omit [DenyGlobs] in
/-- The metadata directories directly below the path. -/
def metadataDirs (root : PathUri) : List PathUri :=
  protectedMetadataPathNames.filterMap root.joinDescendant

def grantedDirs (matcher : Option PreparedReadDenyMatcher)
    (context : FileSystemSandboxPolicyContext) (root : PathUri) : List PathUri :=
  (metadataDirs root).filter fun directory => !isReadDenied matcher context directory

theorem foldlM_grantMetadata {names : List Str} {entries granted : List FileSystemSandboxEntry}
    (h : names.foldlM (grantMetadata matcher context root) entries = some granted) :
    granted = entries ++ ((names.filterMap root.joinDescendant).filter fun directory =>
        !isReadDenied matcher context directory).map (fun path => writeEntry (.path path)) ∧
      ∀ name ∈ names, (root.joinDescendant name).isSome = true := by
  induction names generalizing entries with
  | nil =>
    obtain rfl := Option.some_inj.mp h
    simp
  | cons name rest ih =>
    obtain ⟨next, hnext, h⟩ := Option.bind_eq_some_iff.mp h
    obtain ⟨directory, hdirectory, hnext⟩ := Option.bind_eq_some_iff.mp hnext
    obtain rfl := Option.some_inj.mp hnext
    obtain ⟨rfl, hjoined⟩ := ih h
    refine ⟨?_, ?_⟩
    · rw [filterMap_cons_some hdirectory]
      cases hdenied : isReadDenied matcher context directory <;> simp [hdenied]
    · exact forall_mem_cons.mpr ⟨by simp [hdirectory], hjoined⟩

/-- The steps of a successful approval. -/
structure Approval (policy approved base : FileSystemSandboxPolicy)
    (context : FileSystemSandboxPolicyContext) (root : PathUri)
    (matcher : Option PreparedReadDenyMatcher) : Prop where
  materialized : (grantRoot.preserveDenyReadRestrictionsFrom policy).tryMaterializeProjectRoots
    context.workspaceRoots = some base
  isRoot : fileSystemRoot context = some root
  prepared : tryNewWithContext base context = .ok matcher
  writable : base.resolveAccess root context = write
  notDenied : isReadDenied matcher context root = false
  joined : ∀ name ∈ protectedMetadataPathNames, (root.joinDescendant name).isSome = true
  granted : approved = { base with entries :=
    base.entries ++ (grantedDirs matcher context root).map fun path => writeEntry (.path path) }

theorem exists_approval (h : policy.approveCommand context = some approved) :
    ∃ base root matcher, Approval policy approved base context root matcher := by
  unfold approveCommand at h
  dsimp only at h
  split_ifs at h
  obtain ⟨base, hbase, h⟩ := Option.bind_eq_some_iff.mp h
  obtain ⟨root, hroot, h⟩ := Option.bind_eq_some_iff.mp h
  obtain ⟨matcher, hmatcher, h⟩ := Option.bind_eq_some_iff.mp h
  split_ifs at h with hrefused
  obtain ⟨entries, hentries, h⟩ := Option.bind_eq_some_iff.mp h
  obtain rfl := Option.some_inj.mp h
  obtain ⟨hgranted, hjoined⟩ := foldlM_grantMetadata hentries
  simp only [Bool.or_eq_true, not_or, Bool.not_eq_true] at hrefused
  refine ⟨base, root, matcher, hbase, hroot, ?_, ?_, hrefused.2, hjoined, ?_⟩
  · cases hprepared : tryNewWithContext base context with
    | error err => simp [hprepared, Except.toOption] at hmatcher
    | ok prepared =>
      rw [hprepared] at hmatcher
      exact congrArg Except.ok (Option.some_inj.mp hmatcher)
  · simpa [canWrite] using hrefused.1
  · rw [hgranted]
    rfl

/-! ## The entries of the approved policy -/

omit [UrlHosts] [DenyGlobs] in
theorem comparable_iff : comparable path context = true ↔
    context.convention.isSome = true ∧ path.inferPathConvention = context.convention ∧
      path.lexicalDepth.isSome = true ∧ context.cwd.lexicalDepth.isSome = true := by
  simp only [comparable, Bool.and_eq_true, decide_eq_true_eq, and_assoc]

namespace Approval

variable (h : Approval policy approved base context root matcher)
include h

/-- The root comes first, and behind it there are only denials of the original policy. -/
theorem base_entries :
    base.kind = .restricted ∧ ∃ rest, base.entries = writeEntry (.special .root) :: rest ∧
      ∀ entry ∈ rest, entry.access = deny ∧ ∃ source ∈ policy.retainedDenials.entries,
        ∃ out, source.materializeProjectRoots context.workspaceRoots = some out ∧ entry ∈ out := by
  obtain ⟨pushed, hpushed, hmem⟩ := foldl_pushNew_eq_append policy.retainedDenials.entries
    [writeEntry (.special .root)]
  obtain ⟨lists, hlists, rfl⟩ := Option.map_eq_some_iff.mp h.materialized
  change mapM _ (policy.retainedDenials.entries.foldl _ [writeEntry (.special .root)]) = _ at hlists
  rw [hpushed, singleton_append, mapM_cons] at hlists
  obtain ⟨first, hfirst, hlists⟩ := Option.bind_eq_some_iff.mp hlists
  obtain ⟨others, hothers, hlists⟩ := Option.bind_eq_some_iff.mp hlists
  obtain rfl := Option.some_inj.mp hlists
  obtain rfl : [writeEntry (.special .root)] = first := Option.some_inj.mp hfirst
  refine ⟨rfl, others.flatten, rfl, ?_⟩
  intro entry hentry
  obtain ⟨source, hsource, out, hout, hmemOut⟩ := ((mapM_eq_some_spec hothers).2 entry).mp hentry
  have hdenial := hmem source hsource
  have hdeny : source.access = deny := by
    simpa using (mem_filter.mp hdenial).2
  exact ⟨access_of_mem_materialize hdeny hout hmemOut, source, hdenial, out, hout, hmemOut⟩

theorem access_ne_deny : base.resolveAccess root context ≠ deny := by
  rw [h.writable]
  decide

theorem comparable_root : comparable root context = true := by
  exact ((resolveAccess_eq_iff_of_ne_deny h.base_entries.1 h.access_ne_deny).mp rfl).1

/-- The resolved base: a grant at the root, then denials. -/
theorem base_resolvedEntries : ∃ denials, base.resolvedEntries context = (root, write) :: denials ∧
      ∀ entry ∈ denials, entry.2 = deny := by
  obtain ⟨hkind, rest, hentries, hrest⟩ := h.base_entries
  have hroots : (writeEntry (.special .root)).roots context = [root] := by
    have hconvention := (comparable_iff.mp h.comparable_root).2.1
    simp [FileSystemSandboxEntry.roots, writeEntry, FileSystemPath.resolve,
      FileSystemSpecialPath.resolve, h.isRoot, hconvention]
  refine ⟨(restricted rest).resolvedEntries context, ?_, ?_⟩
  · rw [resolvedEntries, hentries, flatMap_cons, hroots]
    rfl
  · rintro ⟨other, access⟩ hmem
    obtain ⟨entry, hentry, -, rfl⟩ := mem_resolvedEntries.mp hmem
    exact (hrest entry hentry).1

/-! ## Grants and denials -/

/-- With read denials, the matcher is the prepared one. -/
theorem exists_prepared (hdenials : base.hasContextReadDenials context = true) :
    ∃ ready, base.prepareDenyReadMatcher context .returnError = .ok ready ∧
      matcher = some ready := by
  have hprepared := h.prepared
  unfold tryNewWithContext at hprepared
  rw [if_pos hdenials] at hprepared
  obtain ⟨_, -, hprepared⟩ := bind_eq_ok hprepared
  obtain ⟨ready, hready, hsome⟩ := map_eq_ok hprepared
  exact ⟨ready, hready, hsome.symm⟩

end Approval

/-! ## Where grants and denials lie -/

omit [DenyGlobs] in
/-- A metadata directory lies one name below its root. -/
theorem location_of_mem_metadataDirs {top : Location} (htop : root.location = some top)
    (htext : root.decodesToText = true) (hmem : directory ∈ metadataDirs root) :
    ∃ name ∈ protectedMetadataPathNames, root.joinDescendant name = some directory ∧
      directory.location = some { top with names :=
        top.names ++ [segmentKey top.convention (percentEncode name)] } ∧
      directory.decodesToText = true := by
  obtain ⟨name, hname, hjoin⟩ := mem_filterMap.mp hmem
  exact ⟨name, hname, hjoin,
    location_joinDescendant_plain (plainWindowsName_of_mem hname) htop htext hjoin⟩

omit [DenyGlobs] in
/-- A path is in at most one metadata directory of a root. -/
theorem eq_of_mem_metadataDirs {top place : Location} {other : PathUri}
    (htop : root.location = some top) (htext : root.decodesToText = true)
    (hpath : path.location = some place) (hmem : directory ∈ metadataDirs root)
    (hstarts : path.startsWith directory = true) (hother : other ∈ metadataDirs root)
    (hotherStarts : path.startsWith other = true) : directory = other := by
  have hkeys : ∀ convention, ∀ name ∈ protectedMetadataPathNames,
      ∀ other ∈ protectedMetadataPathNames,
        segmentKey convention (percentEncode name) =
          segmentKey convention (percentEncode other) → name = other := by
    intro convention
    cases convention <;> decide
  obtain ⟨name, hname, hjoin, hlocation, hdirText⟩ := location_of_mem_metadataDirs htop htext hmem
  obtain ⟨name', hname', hjoin', hlocation', hdirText'⟩ :=
    location_of_mem_metadataDirs htop htext hother
  have hbelow := (startsWith_iff_below hpath hlocation hdirText).mp hstarts
  have hbelow' := (startsWith_iff_below hpath hlocation' hdirText').mp hotherStarts
  have hkey := (hbelow.head?_drop rfl).symm.trans (hbelow'.head?_drop rfl)
  have heq := hkeys top.convention name hname name' hname' (Option.some_inj.mp hkey)
  rw [heq, hjoin'] at hjoin
  exact (Option.some_inj.mp hjoin).symm

/-- What the proofs about an approval with roots of text rest on. -/
structure PlacedApproval (policy approved base : FileSystemSandboxPolicy)
    (context : FileSystemSandboxPolicyContext) (root : PathUri)
    (matcher : Option PreparedReadDenyMatcher) (top : Location)
    (denials : List (PathUri × FileSystemAccessMode)) : Prop
    extends Approval policy approved base context root matcher where
  place : root.location = some top
  text : TextRoots (base.resolvedEntries context)
  resolved : base.resolvedEntries context = (root, write) :: denials
  denied : ∀ entry ∈ denials, entry.2 = deny

theorem Approval.exists_placed (h : Approval policy approved base context root matcher)
    (htext : TextRoots (base.resolvedEntries context)) :
    ∃ top denials, PlacedApproval policy approved base context root matcher top denials := by
  obtain ⟨top, htop⟩ := exists_location_of_lexicalDepth (comparable_iff.mp h.comparable_root).2.2.1
  obtain ⟨denials, hresolved, hdenied⟩ := h.base_resolvedEntries
  exact ⟨top, denials, h, htop, htext, hresolved, hdenied⟩

namespace PlacedApproval

variable {top : Location} {denials : List (PathUri × FileSystemAccessMode)}

variable (h : PlacedApproval policy approved base context root matcher top denials)
include h

theorem rootText : root.decodesToText = true :=
  h.text (root, write) (by simp [h.resolved])

/-- The rules of the approved policy: the root, the denials and the granted directories. -/
theorem resolvedEntries_eq :
    approved.resolvedEntries context =
      (root, write) :: (denials ++ (grantedDirs matcher context root).map (·, write)) := by
  have hdirs : ∀ directory ∈ grantedDirs matcher context root,
      directory.inferPathConvention = context.convention := by
    intro directory hmem
    obtain ⟨name, -, -, hlocation, -⟩ :=
      location_of_mem_metadataDirs h.place h.rootText (mem_of_mem_filter hmem)
    rw [(location_eq_some_iff.mp hlocation).2.1, ← (location_eq_some_iff.mp h.place).2.1]
    exact (comparable_iff.mp h.comparable_root).2.1
  rw [h.granted, ← cons_append, ← h.resolved]
  simp only [resolvedEntries, flatMap_append, append_cancel_left_eq]
  generalize grantedDirs matcher context root = granted at hdirs ⊢
  induction granted with
  | nil => rfl
  | cons directory rest ih =>
    have hroots : (writeEntry (.path directory)).roots context = [directory] := by
      simp [FileSystemSandboxEntry.roots, writeEntry, FileSystemPath.resolve,
        hdirs directory (mem_cons_self ..)]
    rw [map_cons, flatMap_cons, hroots,
      ih fun other hother => hdirs other (mem_cons_of_mem _ hother)]
    rfl

theorem mem_denials_iff :
    (denial, deny) ∈ denials ↔ (denial, deny) ∈ base.resolvedEntries context := by
  rw [h.resolved]
  simp

variable {grant : PathUri}

/-- Grants are at the root and at the granted directories. -/
theorem mem_of_ne_deny {access : FileSystemAccessMode} (haccess : access ≠ deny)
    (hmem : (grant, access) ∈ approved.resolvedEntries context) :
    access = write ∧ (grant = root ∨ grant ∈ grantedDirs matcher context root) := by
  rw [h.resolvedEntries_eq] at hmem
  rcases mem_cons.mp hmem with hroot | hrest
  · cases hroot
    exact ⟨rfl, .inl rfl⟩
  · rcases mem_append.mp hrest with hdenial | hgranted
    · exact absurd (h.denied _ hdenial) haccess
    · obtain ⟨directory, hdirectory, heq⟩ := mem_map.mp hgranted
      cases heq
      exact ⟨rfl, .inr hdirectory⟩

variable {place : Location}

section

variable (hgrant : grant = root ∨ grant ∈ grantedDirs matcher context root)
include hgrant

/-- A grant lies at or below the root. -/
theorem grant_below_root (hplace : grant.location = some place) : place.Below top := by
  rcases hgrant with rfl | hgranted
  · rw [h.place, Option.some_inj] at hplace
    subst hplace
    exact Location.Below.refl _
  · obtain ⟨name, -, -, hlocation, -⟩ :=
      location_of_mem_metadataDirs h.place h.rootText (mem_of_mem_filter hgranted)
    rw [hlocation, Option.some_inj] at hplace
    subst hplace
    exact ⟨rfl, rfl, prefix_append _ _⟩

theorem not_isReadDenied : isReadDenied matcher context grant = false := by
  rcases hgrant with rfl | hgranted
  · exact h.notDenied
  · simpa using (mem_filter.mp hgranted).2

omit hgrant in
/-- The root is not denied at its own place, since it can be written. -/
theorem root_not_below (hdenial : (denial, deny) ∈ denials) (hplace : denial.location = some place)
    (hbelow : place.Below top) : ¬ top.Below place := by
  intro habove
  obtain ⟨-, -, governing, hgoverns⟩ :=
    governs_of_resolveAccess h.base_entries.1 h.text h.place h.access_ne_deny
  rw [h.writable] at hgoverns
  obtain ⟨grant, hgrant, hgrantPlace⟩ := hgoverns.mem
  have hroot : governing = top := by
    rw [h.resolved] at hgrant
    rcases mem_cons.mp hgrant with heq | hdenied
    · cases heq
      exact Option.some_inj.mp (hgrantPlace.symm.trans h.place)
    · cases h.denied _ hdenied
  subst hroot
  have hmem : (place, deny) ∈ places (base.resolvedEntries context) :=
    ⟨denial, h.mem_denials_iff.mp hdenial, hplace⟩
  rcases hgoverns.max place deny hmem habove with hlt | ⟨-, hle⟩
  · exact absurd hbelow.depth_le (by omega)
  · exact absurd hle (by decide)

/-- No grant lies at or below a denied root. -/
theorem not_below_denial {denialPlace : Location} (hplace : grant.location = some place)
    (hdenial : (denial, deny) ∈ denials) (hdenialPlace : denial.location = some denialPlace) :
    ¬ place.Below denialPlace := by
  intro hbelow
  have hmem := h.mem_denials_iff.mp hdenial
  have hstarts := (startsWith_iff_below hplace hdenialPlace (h.text _ hmem)).mpr hbelow
  cases hroot : isFileSystemRoot context denial with
  | false =>
    -- the matcher knows the denial, so that the grant would have been refused
    have hdenies : base.Denies context denial := ⟨h.base_entries.1, hmem, hroot⟩
    obtain ⟨ready, hready, hmatcher⟩ := h.exists_prepared hdenies.hasContextReadDenials
    have hknown : denial ∈ ready.deniedRoots := by
      rw [deniedRoots_of_prepareDenyReadMatcher hready]
      exact hdenies.mem_deniedRoots
    have hrefused := h.not_isReadDenied hgrant
    rw [hmatcher, isReadDenied, Option.any_some,
      matchesPreparedReadDeny_of_mem hknown hstarts] at hrefused
    cases hrefused
  | true =>
    rw [isFileSystemRoot, h.isRoot, Option.any_some, Bool.and_eq_true] at hroot
    exact h.root_not_below hdenial hdenialPlace
      ((startsWith_iff_below hdenialPlace h.place h.rootText).mp hroot.1)
      ((startsWith_iff_below h.place hdenialPlace (h.text _ hmem)).mp hroot.2)

end

/-! ## The access of the approved policy -/

theorem mem_or_located {entry : PathUri × FileSystemAccessMode}
    (hmem : entry ∈ approved.resolvedEntries context) :
    entry ∈ base.resolvedEntries context ∨
      (∃ place, entry.1.location = some place) ∧ entry.1.decodesToText = true := by
  rw [h.resolvedEntries_eq, ← cons_append, ← h.resolved] at hmem
  refine (mem_append.mp hmem).imp_right fun hgranted => ?_
  obtain ⟨directory, hdirectory, rfl⟩ := mem_map.mp hgranted
  obtain ⟨name, -, -, hlocation, htext⟩ :=
    location_of_mem_metadataDirs h.place h.rootText (mem_of_mem_filter hdirectory)
  exact ⟨⟨_, hlocation⟩, htext⟩

theorem textRoots : TextRoots (approved.resolvedEntries context) := fun entry hmem =>
  (h.mem_or_located hmem).elim (h.text entry) And.right

theorem unambiguous : approved.Unambiguous context := by
  have hbase := ((resolveAccess_eq_iff_of_ne_deny h.base_entries.1 h.access_ne_deny).mp rfl).2.1
  intro entry hmem
  rcases h.mem_or_located hmem with hold | ⟨⟨place, hlocation⟩, -⟩
  · exact hbase entry hold
  · simp [ambiguousRoot, lexicalDepth_eq, hlocation]

theorem kind_eq : approved.kind = .restricted := by
  rw [h.granted]
  exact h.base_entries.1

/-- A denial outranks all grants: what it covers is denied. -/
theorem resolveAccess_of_denied (hcomparable : comparable path context = true)
    (hpath : path.location = some place) (hdenial : (denial, deny) ∈ denials)
    (hstarts : path.startsWith denial = true) : approved.resolveAccess path context = deny := by
  obtain ⟨denialPlace, hdenialPlace⟩ := exists_location_of_startsWith hpath hstarts
  have htext := h.text _ (h.mem_denials_iff.mp hdenial)
  have hbelow := (startsWith_iff_below hpath hdenialPlace htext).mp hstarts
  have hmem : (denialPlace, deny) ∈ places (approved.resolvedEntries context) := by
    refine ⟨denial, ?_, hdenialPlace⟩
    rw [h.resolvedEntries_eq]
    exact mem_cons_of_mem _ (mem_append_left _ hdenial)
  obtain ⟨governing, access, hgoverns⟩ := exists_governs h.textRoots hpath hmem hbelow
  have hdeny : access = deny := by
    by_contra hne
    obtain ⟨grant, hgrant, hplace⟩ := hgoverns.mem
    obtain ⟨rfl, hkind⟩ := h.mem_of_ne_deny hne hgrant
    have hdepth : denialPlace.depth ≤ governing.depth := by
      rcases hgoverns.max denialPlace deny hmem hbelow with hlt | ⟨heq, -⟩
      all_goals omega
    exact h.not_below_denial hkind hplace hdenial hdenialPlace
      (hgoverns.below.of_depth_le hbelow hdepth)
  rw [← hdeny]
  exact resolveAccess_of_governs h.kind_eq hcomparable h.unambiguous h.textRoots hpath hgoverns

/-- Where no denial covers the path, the root grants the write. -/
theorem resolveAccess_of_not_denied (hcomparable : comparable path context = true)
    (hpath : path.location = some place)
    (hnone : ∀ denial, (denial, deny) ∈ denials → path.startsWith denial = false) :
    approved.resolveAccess path context = if path.startsWith root then write else deny := by
  have hrule : ∀ governing access,
      Governs (places (approved.resolvedEntries context)) place governing access →
        access = write ∧ path.startsWith root = true := by
    rintro governing access ⟨⟨grant, hgrant, hplace⟩, hbelow, -⟩
    have hcovers := (startsWith_iff_below hpath hplace (h.textRoots _ hgrant)).mpr hbelow
    have hne : access ≠ deny := by
      rintro rfl
      rw [h.resolvedEntries_eq] at hgrant
      have hdenial : (grant, deny) ∈ denials := by simpa using hgrant
      rw [hnone grant hdenial] at hcovers
      cases hcovers
    obtain ⟨rfl, hkind⟩ := h.mem_of_ne_deny hne hgrant
    refine ⟨rfl, (startsWith_iff_below hpath h.place h.rootText).mpr ?_⟩
    exact hbelow.trans (h.grant_below_root hkind hplace)
  cases hroot : path.startsWith root with
  | true =>
    have hmem : (top, write) ∈ places (approved.resolvedEntries context) :=
      ⟨root, by simp [h.resolvedEntries_eq], h.place⟩
    have hbelow := (startsWith_iff_below hpath h.place h.rootText).mp hroot
    obtain ⟨governing, access, hgoverns⟩ := exists_governs h.textRoots hpath hmem hbelow
    obtain rfl := (hrule governing access hgoverns).1
    exact resolveAccess_of_governs h.kind_eq hcomparable h.unambiguous h.textRoots hpath hgoverns
  | false =>
    by_contra hne
    obtain ⟨-, -, governing, hgoverns⟩ :=
      governs_of_resolveAccess h.kind_eq h.textRoots hpath hne
    have htrue := (hrule governing _ hgoverns).2
    rw [hroot] at htrue
    cases htrue

end PlacedApproval

/-! ## Denials by globs -/

/-- A deny glob of the policy matches the path. -/
def globDenied (policy : FileSystemSandboxPolicy) (context : FileSystemSandboxPolicyContext)
    (path : PathUri) : Bool :=
  match policy.prepareDenyReadMatcher context .returnError, context.convention with
  | .ok prepared, some convention =>
    prepared.denyReadMatchers.any fun matcher =>
      DenyGlobs.isMatch matcher (globCandidate convention path)
  | _, _ => false

/-- A strict matcher has no invalid pattern, and no glob comes from nowhere. -/
theorem strict_matcher_spec {prepared : PreparedReadDenyMatcher}
    (h : policy.prepareDenyReadMatcher context .returnError = .ok prepared)
    (hconvention : context.convention.isSome = true) :
    prepared.invalidPattern = false ∧ (policy.denyPatterns = [] → prepared.denyReadMatchers = []) := by
  obtain ⟨convention, hsome⟩ := Option.isSome_iff_exists.mp hconvention
  simp only [prepareDenyReadMatcher, hsome] at h
  cases hglobs : policy.denyReadGlobs context with
  | error err =>
    rw [hglobs] at h
    cases h
  | ok patterns =>
    rw [hglobs] at h
    refine ⟨foldlM_invariant (I := fun _ state => state.invalidPattern = false) rfl ?_ h, ?_⟩
    · intro past state pattern next hstate _ hstep
      unfold addDenyMatcher at hstep
      split at hstep <;> cases hstep
      exact hstate
    intro hnone
    obtain rfl : [] = patterns := by
      simpa [denyReadGlobs, hnone, pure, Except.pure] using hglobs
    cases h
    rfl

omit [UrlHosts] [DenyGlobs] in
theorem denyPatterns_eq_nil (h : ∀ entry ∈ policy.entries, entry.access = deny →
    ∀ pattern, entry.path ≠ .globPattern pattern) : policy.denyPatterns = [] := by
  rw [denyPatterns, filterMap_eq_nil_iff]
  intro entry hentry
  obtain ⟨hmem, hdeny⟩ := mem_filter.mp hentry
  cases hpath : entry.path with
  | path uri => rfl
  | special value => rfl
  | globPattern pattern => exact absurd hpath (h entry hmem (of_decide_eq_true hdeny) pattern)

omit [UrlHosts] [DenyGlobs] in
/-- A policy without read denials has no deny globs. -/
theorem denyPatterns_of_not_hasContextReadDenials (hkind : policy.kind = .restricted)
    (h : policy.hasContextReadDenials context = false) : policy.denyPatterns = [] := by
  simp only [hasContextReadDenials, hkind, decide_true, Bool.true_and, any_eq_false] at h
  refine denyPatterns_eq_nil fun entry hmem hdeny pattern hpath => ?_
  have hskipped := h entry hmem
  simp [hpath, hdeny] at hskipped

namespace PlacedApproval

variable {top : Location} {denials : List (PathUri × FileSystemAccessMode)}

variable (h : PlacedApproval policy approved base context root matcher top denials)
include h

theorem prepareDenyReadMatcher_eq :
    approved.prepareDenyReadMatcher context .returnError =
      base.prepareDenyReadMatcher context .returnError := by
  have hroots : approved.deniedRoots context = base.deniedRoots context := by
    have hwrites : ∀ directories : List PathUri,
        (directories.map (·, write)).filter (fun entry => entry.2 = deny) = [] := by
      intro directories
      simp
    unfold deniedRoots
    rw [h.resolvedEntries_eq, ← cons_append, ← h.resolved, filter_append, hwrites, append_nil]
  have hpatterns : approved.denyPatterns = base.denyPatterns := by
    have hwrites : ∀ directories : List PathUri,
        (directories.map fun path => writeEntry (.path path)).filter
          (fun entry => entry.access = deny) = [] := by
      intro directories
      simp [writeEntry]
    unfold denyPatterns
    rw [h.granted, filter_append, hwrites, append_nil]
  simp only [prepareDenyReadMatcher, denyReadGlobs, hroots, hpatterns]

/-- Where no denial covers a path, the matcher denies it because of a glob. -/
theorem isReadDenied_eq_globDenied (hcomparable : comparable path context = true)
    (hnone : ∀ denial, (denial, deny) ∈ denials → path.startsWith denial = false) :
    isReadDenied matcher context path = approved.globDenied context path := by
  have hconvention := (comparable_iff.mp hcomparable).1
  obtain ⟨convention, hsome⟩ := Option.isSome_iff_exists.mp hconvention
  unfold globDenied
  rw [h.prepareDenyReadMatcher_eq]
  by_cases hdenials : base.hasContextReadDenials context = true
  · obtain ⟨ready, hready, rfl⟩ := h.exists_prepared hdenials
    have hroots : (ready.deniedRoots.any fun denial => path.startsWith denial) = false := by
      rw [any_eq_false, deniedRoots_of_prepareDenyReadMatcher hready]
      intro denial hdenial
      obtain ⟨⟨other, access⟩, hmem, rfl⟩ := mem_map.mp hdenial
      obtain ⟨hmem, haccess⟩ := mem_filter.mp (mem_of_mem_filter hmem)
      obtain rfl : access = deny := by simpa using haccess
      simp [hnone other (h.mem_denials_iff.mpr hmem)]
    rw [hready]
    simp only [isReadDenied, Option.any_some, matchesPreparedReadDeny, hsome, hcomparable,
      (strict_matcher_spec hready hconvention).1, hroots, Bool.not_true,
      Bool.false_eq_true, if_false, Bool.false_or]
  · obtain rfl : none = matcher := by simpa [tryNewWithContext, hdenials] using h.prepared
    have hpatterns := denyPatterns_of_not_hasContextReadDenials h.base_entries.1
      (Bool.eq_false_iff.mpr hdenials)
    cases hready : base.prepareDenyReadMatcher context .returnError with
    | error err => simp [isReadDenied]
    | ok ready =>
      simp [isReadDenied, hsome, (strict_matcher_spec hready hconvention).2 hpatterns]

/-! ## Metadata -/

/-- The metadata directories that are tried: first those of the root. -/
theorem protectedDirs_eq :
    approved.protectedDirs context =
      metadataDirs root ++ (grantedDirs matcher context root).flatMap metadataDirs := by
  have hdenied : denials.filter (fun entry => entry.2.canWrite) = [] := by
    rw [filter_eq_nil_iff]
    intro entry hentry
    simp [h.denied entry hentry, canWrite]
  have hgranted : ∀ directories : List PathUri,
      (directories.map (·, write)).filter (fun entry => entry.2.canWrite) =
        directories.map (·, write) := by
    intro directories
    simp [canWrite]
  unfold protectedDirs
  rw [h.resolvedEntries_eq, filter_cons_of_pos (by simp [canWrite]), filter_append,
    hdenied, hgranted, nil_append, flatMap_cons, flatMap_map]
  rfl

/-- Full-disk access leaves no room for deny globs. -/
theorem globDenied_of_hasFullDiskWriteAccess
    (hfull : approved.hasFullDiskWriteAccess context.convention = true) :
    approved.globDenied context path = false := by
  simp only [hasFullDiskWriteAccess, h.kind_eq, Option.any_eq_true, Bool.and_eq_true,
    Bool.not_eq_true', hasWriteNarrowingEntries, decide_true, Bool.true_and,
    any_eq_false] at hfull
  obtain ⟨convention, hconvention, -, hnarrow⟩ := hfull
  have hpatterns : approved.denyPatterns = [] := by
    refine denyPatterns_eq_nil fun entry hmem hdeny pattern hpath => ?_
    have hnot := hnarrow entry hmem
    simp [narrowsWrite, hpath, hdeny, canWrite] at hnot
  unfold globDenied
  cases hready : approved.prepareDenyReadMatcher context .returnError with
  | error err => rfl
  | ok ready =>
    simp [hconvention, (strict_matcher_spec hready (by simp [hconvention])).2 hpatterns]

/-- Inside a metadata directory of the root the write needs the grant of that directory. -/
theorem overridden_iff {place : Location} (hpath : path.location = some place)
    (hdirectory : directory ∈ metadataDirs root) (hstarts : path.startsWith directory = true) :
    overridden (approved.resolvedEntries context) path directory = true ↔
      directory ∈ grantedDirs matcher context root := by
  rw [overridden, any_eq_true]
  constructor
  · rintro ⟨⟨grant, access⟩, hmem, hcovers⟩
    simp only [Bool.and_eq_true] at hcovers
    obtain ⟨⟨haccess, hgrantStarts⟩, hinside⟩ := hcovers
    have hne : access ≠ deny := by
      rintro rfl
      cases haccess
    rcases (h.mem_of_ne_deny hne hmem).2 with rfl | hgranted
    · -- the root is not inside its own directory
      obtain ⟨name, -, -, hlocation, htext⟩ :=
        location_of_mem_metadataDirs h.place h.rootText hdirectory
      have hbelow := (startsWith_iff_below h.place hlocation htext).mp hinside
      have hlength := hbelow.2.2.length_le
      rw [length_append, length_singleton] at hlength
      omega
    · rw [eq_of_mem_metadataDirs h.place h.rootText hpath hdirectory hstarts
        (mem_of_mem_filter hgranted) hgrantStarts]
      exact hgranted
  · intro hgranted
    refine ⟨(directory, write), ?_, ?_⟩
    · rw [h.resolvedEntries_eq]
      exact mem_cons_of_mem _ (mem_append_right _ (mem_map.mpr ⟨directory, hgranted, rfl⟩))
    · simp [canWrite, hstarts, startsWith_of_same (same_refl directory)]

/-- A path in a directory nested in a granted one is in the granted one. -/
theorem startsWith_of_nested {place : Location} (hpath : path.location = some place)
    {outer : PathUri} (houter : outer ∈ metadataDirs root)
    (hnested : directory ∈ metadataDirs outer) (hstarts : path.startsWith directory = true) :
    path.startsWith outer = true := by
  obtain ⟨name, -, -, hlocation, htext⟩ := location_of_mem_metadataDirs h.place h.rootText houter
  obtain ⟨name', -, -, hlocation', htext'⟩ := location_of_mem_metadataDirs hlocation htext hnested
  have hbelow := (startsWith_iff_below hpath hlocation' htext').mp hstarts
  rw [startsWith_iff_below hpath hlocation htext]
  exact hbelow.trans ⟨rfl, rfl, prefix_append _ _⟩

theorem canWritePath_iff :
    approved.canWritePath path context = true ↔
      approved.resolveAccess path context = write ∧ ∀ directory ∈ metadataDirs root,
        path.startsWith directory = true → approved.globDenied context directory = false := by
  have hrestricted : approved = restricted approved.entries := by
    rw [restricted, ← h.kind_eq]
  have hiff := @canWritePath_restricted_iff path context approved.entries _
  rw [findSome?_firstProtectedDir, ← hrestricted, h.protectedDirs_eq] at hiff
  rw [hiff]
  refine and_congr_right ?_
  intro haccess
  -- the path lies somewhere, and no denial covers it
  have hcomparable : comparable path context = true := by
    have hne : approved.resolveAccess path context ≠ deny := by
      rw [haccess]
      decide
    exact ((resolveAccess_eq_iff_of_ne_deny h.kind_eq hne).mp rfl).1
  obtain ⟨place, hpath⟩ :=
    exists_location_of_lexicalDepth (comparable_iff.mp hcomparable).2.2.1
  have hnone : ∀ denial, (denial, deny) ∈ denials → path.startsWith denial = false := by
    intro denial hdenial
    rw [Bool.eq_false_iff]
    intro hstarts
    rw [h.resolveAccess_of_denied hcomparable hpath hdenial hstarts] at haccess
    cases haccess
  have hglob : ∀ directory ∈ metadataDirs root, path.startsWith directory = true →
      (directory ∈ grantedDirs matcher context root ↔
        approved.globDenied context directory = false) := by
    intro directory hdirectory hstarts
    obtain ⟨name, -, -, hlocation, htext⟩ :=
      location_of_mem_metadataDirs h.place h.rootText hdirectory
    have hdirComparable : comparable directory context = true := by
      obtain ⟨hsome, hconvention, -, hcwd⟩ := comparable_iff.mp h.comparable_root
      rw [(location_eq_some_iff.mp h.place).2.1] at hconvention
      refine comparable_iff.mpr ⟨hsome, ?_, ?_, hcwd⟩
      · rw [(location_eq_some_iff.mp hlocation).2.1]
        exact hconvention
      · simp [lexicalDepth_eq, hlocation]
    have hbelow := (startsWith_iff_below hpath hlocation htext).mp hstarts
    have hdirNone : ∀ denial, (denial, deny) ∈ denials → directory.startsWith denial = false := by
      intro denial hdenial
      rw [Bool.eq_false_iff]
      intro hcovers
      have hpathCovers := startsWith_of_below hpath hlocation hbelow
        (h.text _ (h.mem_denials_iff.mp hdenial)) hcovers
      rw [hnone denial hdenial] at hpathCovers
      cases hpathCovers
    rw [← h.isReadDenied_eq_globDenied hdirComparable hdirNone, grantedDirs]
    simp [hdirectory]
  constructor
  · rintro (hfull | hfirst) directory hdirectory hstarts
    · exact h.globDenied_of_hasFullDiskWriteAccess hfull
    · -- the directory is the one that is found first
      have hfound : (metadataDirs root).find? path.startsWith = some directory := by
        cases hfind : (metadataDirs root).find? path.startsWith with
        | none => exact absurd hstarts (by simpa using find?_eq_none.mp hfind _ hdirectory)
        | some first =>
          rw [eq_of_mem_metadataDirs h.place h.rootText hpath (mem_of_find?_eq_some hfind)
            (find?_some hfind) hdirectory hstarts]
      have hoverridden := hfirst directory (by rw [find?_append, hfound]; rfl)
      exact (hglob directory hdirectory hstarts).mp
        ((h.overridden_iff hpath hdirectory hstarts).mp hoverridden)
  · intro hall
    right
    intro first hfind
    have hstarts : path.startsWith first = true := find?_some hfind
    rw [find?_append] at hfind
    cases hroot : (metadataDirs root).find? path.startsWith with
    | some directory =>
      rw [hroot] at hfind
      cases hfind
      have hdirectory := mem_of_find?_eq_some hroot
      exact (h.overridden_iff hpath hdirectory hstarts).mpr
        ((hglob first hdirectory hstarts).mpr (hall first hdirectory hstarts))
    | none =>
      rw [hroot] at hfind
      obtain ⟨outer, houter, hnested⟩ := mem_flatMap.mp (mem_of_find?_eq_some hfind)
      have hmem := mem_of_mem_filter houter
      have hcovers := h.startsWith_of_nested hpath hmem hnested hstarts
      exact absurd hcovers (by simpa using find?_eq_none.mp hroot outer hmem)

end PlacedApproval

end FileSystemSandboxPolicy

end Codex
