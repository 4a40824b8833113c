import Codex.Permissions.ApprovedAccess

/-!
# The approved command against the original policy

The denials of the approved policy are those of the original one after the entries
relative to the workspace have been turned into paths; equal denials are kept once.  With
this, what an approved command may write is stated for the policy it started from.

`forApprovedCommand_access` states it, with the exceptions of `not_approvesAllElse`: other drives,
metadata directories that a deny glob matches, and names that are no text.
-/

namespace Codex

open Text Bytes FileSystemAccessMode PathUri List

namespace FileSystemSandboxPolicy

variable [UrlHosts] [DenyGlobs] {policy base approved : FileSystemSandboxPolicy}
  {context : FileSystemSandboxPolicyContext} {root path : PathUri}
  {matcher : Option PreparedReadDenyMatcher}

/-! ## The denials of the original policy -/

/-- The denials that are kept are those of the original policy, up to equality of entries. -/
theorem Approval.exists_denied (h : Approval policy approved base context root matcher) :
    ∃ denied, policy.retainedDenials.tryMaterializeProjectRoots context.workspaceRoots = some denied ∧
      (∀ denial, (denial, deny) ∈ base.resolvedEntries context →
        (denial, deny) ∈ denied.resolvedEntries context) ∧
      ∀ denial, (denial, deny) ∈ denied.resolvedEntries context →
        ∃ kept, (kept, deny) ∈ base.resolvedEntries context ∧ kept.same denial = true := by
  have hmaterialized := h.materialized
  obtain ⟨-, hsome, hbase⟩ := tryMaterializeProjectRoots_spec hmaterialized
  have hkept : ∀ entry ∈ policy.retainedDenials.entries,
      ∃ kept ∈ (restricted (policy.retainedDenials.entries.foldl pushNew
        [writeEntry (.special .root)])).entries, kept.same entry = true :=
    fun entry hentry => exists_same_foldl_pushNew hentry
  have hall : ∀ entry ∈ policy.retainedDenials.entries,
      (entry.materializeProjectRoots context.workspaceRoots).isSome = true := by
    intro entry hentry
    obtain ⟨kept, hmem, hsame⟩ := hkept entry hentry
    rcases materializeProjectRoots_of_same hsame with rfl | ⟨-, hself⟩
    · exact hsome kept hmem
    · rw [hself]
      rfl
  obtain ⟨lists, hlists⟩ := exists_mapM_eq_some hall
  have hdenied : policy.retainedDenials.tryMaterializeProjectRoots context.workspaceRoots =
      some { policy.retainedDenials with entries := lists.flatten } := by
    rw [tryMaterializeProjectRoots, hlists]
    rfl
  refine ⟨_, hdenied, ?_, ?_⟩
  · intro denial hdenial
    obtain ⟨-, rest, hentries, hrest⟩ := h.base_entries
    obtain ⟨entry, hentry, hroot, haccess⟩ := mem_resolvedEntries.mp hdenial
    rw [hentries] at hentry
    rcases mem_cons.mp hentry with rfl | hmem
    · cases haccess
    · obtain ⟨-, source, hsource, out, hout, hmemOut⟩ := hrest entry hmem
      refine mem_resolvedEntries.mpr ⟨entry, ?_, hroot, haccess⟩
      exact ((mapM_eq_some_spec hlists).2 entry).mpr ⟨source, hsource, out, hout, hmemOut⟩
  · intro denial hdenial
    obtain ⟨entry, hentry, hroot, haccess⟩ := mem_resolvedEntries.mp hdenial
    obtain ⟨source, hsource, out, hout, hmemOut⟩ := ((mapM_eq_some_spec hlists).2 entry).mp hentry
    obtain ⟨kept, hmem, hsame⟩ := hkept source hsource
    rcases materializeProjectRoots_of_same hsame with rfl | ⟨hself, hsource'⟩
    · exact ⟨denial, mem_resolvedEntries.mpr
        ⟨entry, (hbase entry).mpr ⟨kept, hmem, out, hout, hmemOut⟩, hroot, haccess⟩,
        same_refl denial⟩
    · rw [hsource', Option.some_inj] at hout
      subst hout
      obtain rfl := mem_singleton.mp hmemOut
      obtain ⟨other, hother, hotherSame⟩ := exists_same_root hsame hroot
      exact ⟨other, mem_resolvedEntries.mpr
        ⟨kept, (hbase kept).mpr ⟨kept, hmem, [kept], hself, mem_singleton.mpr rfl⟩, hother,
          (access_of_same hsame).trans haccess⟩, hotherSame⟩

omit [DenyGlobs] in
/-- The path is at or below a resolved root that is denied. -/
def deniedAt (policy : FileSystemSandboxPolicy) (context : FileSystemSandboxPolicyContext)
    (path : PathUri) : Bool :=
  (policy.resolvedEntries context).any fun entry => entry.2 = deny && path.startsWith entry.1

omit [DenyGlobs] in
theorem deniedAt_eq_true_iff : policy.deniedAt context path = true ↔
    ∃ denial, (denial, deny) ∈ policy.resolvedEntries context ∧ path.startsWith denial = true := by
  simp only [deniedAt, any_eq_true, Bool.and_eq_true, decide_eq_true_eq]
  constructor
  · rintro ⟨⟨denial, access⟩, hmem, rfl, hstarts⟩
    exact ⟨denial, hmem, hstarts⟩
  · rintro ⟨denial, hmem, hstarts⟩
    exact ⟨(denial, deny), hmem, rfl, hstarts⟩

/-- The denied roots of the policy and the root of the file system decode to text, which they
always do on POSIX. -/
def textDenials (policy : FileSystemSandboxPolicy) (context : FileSystemSandboxPolicyContext) :
    Bool :=
  ((policy.retainedDenials.tryMaterializeProjectRoots context.workspaceRoots).all fun denied =>
      (denied.resolvedEntries context).all fun entry => entry.1.decodesToText) &&
    (fileSystemRoot context).all decodesToText

/-- On POSIX every path is at or below the root of the file system. -/
theorem PlacedApproval.startsWith_root {top place : Location}
    {denials : List (PathUri × FileSystemAccessMode)}
    (h : PlacedApproval policy approved base context root matcher top denials)
    (hposix : context.convention = some .posix) (hpath : path.location = some place)
    (hconvention : path.inferPathConvention = context.convention) :
    path.startsWith root = true := by
  have htop := location_posix h.place ((comparable_iff.mp h.comparable_root).2.1.trans hposix)
  have hplace := location_posix hpath (hconvention.trans hposix)
  have hlast : root = context.cwd.ancestorsLast := by
    obtain ⟨depth, -, hroot⟩ := Option.map_eq_some_iff.mp h.isRoot
    exact hroot.symm
  have hnames : top.names = [] :=
    names_of_parent h.place (by rw [htop]) (hlast ▸ parent_lastAncestor (.inl (le_refl _)))
  rw [startsWith_iff_below hpath h.place h.rootText, htop, hplace, hnames]
  exact ⟨rfl, rfl, List.nil_prefix⟩

/-! ## The command may write what is not denied -/

/-- The policy is kept, or exactly the paths below a denied root are denied, all others can be
written, and metadata is no exception. -/
def ApprovesAllElse (policy : FileSystemSandboxPolicy) (context : FileSystemSandboxPolicyContext) :
    Prop :=
  policy.forApprovedCommand context = policy ∨
    ∃ denied, policy.retainedDenials.tryMaterializeProjectRoots context.workspaceRoots =
        some denied ∧
      ∀ path, path.inferPathConvention = context.convention → path.lexicalDepth.isSome = true →
        (policy.forApprovedCommand context).resolveAccess path context =
            (if denied.deniedAt context path then deny else write) ∧
          (policy.forApprovedCommand context).canWritePath path context =
            !denied.deniedAt context path

/-- The policy is kept, or the paths below a denied root are denied and the other paths below the
root of the file system can be written, which are all other paths on POSIX.  In a metadata
directory of the root that a deny glob matches the write is refused. -/
theorem forApprovedCommand_access (policy : FileSystemSandboxPolicy)
    (context : FileSystemSandboxPolicyContext) (hkind : policy.kind = .restricted)
    (htext : policy.textDenials context = true) :
    policy.forApprovedCommand context = policy ∨
      ∃ root denied, fileSystemRoot context = some root ∧
        policy.retainedDenials.tryMaterializeProjectRoots context.workspaceRoots = some denied ∧
        (∀ path, path.inferPathConvention = context.convention → path.lexicalDepth.isSome = true →
          (policy.forApprovedCommand context).resolveAccess path context =
              (if denied.deniedAt context path then deny
                else if path.startsWith root then write else deny) ∧
            (context.convention = some .posix → path.startsWith root = true)) ∧
        ∀ path, (policy.forApprovedCommand context).canWritePath path context = true ↔
          (policy.forApprovedCommand context).resolveAccess path context = write ∧
            ∀ directory ∈ metadataDirs root, path.startsWith directory = true →
              (policy.forApprovedCommand context).globDenied context directory = false := by
  cases happrove : policy.approveCommand context with
  | none =>
    left
    rw [forApprovedCommand, if_pos hkind, happrove, Option.getD_none]
  | some approved =>
    right
    have hresult : policy.forApprovedCommand context = approved := by
      rw [forApprovedCommand, if_pos hkind, happrove, Option.getD_some]
    obtain ⟨base, root, matcher, happroval⟩ := exists_approval happrove
    obtain ⟨denied, hdenied, hkeeps, hkept⟩ := happroval.exists_denied
    -- the roots of the base are the root and denials of the original policy
    rw [textDenials, hdenied, happroval.isRoot, Option.all_some,
      Bool.and_eq_true, all_eq_true] at htext
    have hbaseText : TextRoots (base.resolvedEntries context) := by
      obtain ⟨denials, hresolved, hdeny⟩ := happroval.base_resolvedEntries
      rintro ⟨other, access⟩ hmem
      rw [hresolved] at hmem
      rcases mem_cons.mp hmem with heq | hdenial
      · cases heq
        exact htext.2
      · obtain rfl : access = deny := hdeny _ hdenial
        exact htext.1 _ (hkeeps other (by rw [hresolved]; exact mem_cons_of_mem _ hdenial))
    obtain ⟨top, denials, h⟩ := happroval.exists_placed hbaseText
    refine ⟨root, denied, happroval.isRoot, hdenied, ?_, ?_⟩
    · intro path hconvention hdepth
      obtain ⟨hsome, -, -, hcwd⟩ := comparable_iff.mp happroval.comparable_root
      have hcomparable := comparable_iff.mpr ⟨hsome, hconvention, hdepth, hcwd⟩
      obtain ⟨place, hpath⟩ := exists_location_of_lexicalDepth hdepth
      refine ⟨?_, fun hposix => h.startsWith_root hposix hpath hconvention⟩
      rw [hresult]
      cases hat : denied.deniedAt context path with
      | true =>
        obtain ⟨denial, hmem, hstarts⟩ := deniedAt_eq_true_iff.mp hat
        obtain ⟨kept, hkeptMem, hsame⟩ := hkept denial hmem
        obtain ⟨place', hplace⟩ := exists_location_of_startsWith hpath hstarts
        have hdenialText := htext.1 _ hmem
        have hkeptPlace := location_of_same hsame hplace hdenialText
        have hcovers : path.startsWith kept = true := by
          rw [startsWith_iff_below hpath hkeptPlace (hbaseText _ hkeptMem)]
          exact (startsWith_iff_below hpath hplace hdenialText).mp hstarts
        exact h.resolveAccess_of_denied hcomparable hpath (h.mem_denials_iff.mpr hkeptMem) hcovers
      | false =>
        apply h.resolveAccess_of_not_denied hcomparable hpath
        intro denial hmem
        rw [Bool.eq_false_iff]
        intro hstarts
        have htrue := deniedAt_eq_true_iff.mpr
          ⟨denial, hkeeps denial (h.mem_denials_iff.mp hmem), hstarts⟩
        rw [hat] at htrue
        cases htrue
    · intro path
      rw [hresult]
      exact h.canWritePath_iff

omit [UrlHosts] [DenyGlobs] in
/-- A denial of `/secret` is kept: below it nothing can be read, next to it all can be written. -/
theorem forApprovedCommand_access_secret :
    let _ : UrlHosts := ⟨some⟩
    let _ : DenyGlobs := noGlobs
    let denial : FileSystemSandboxEntry := ⟨.path (ofSegments ["secret"]), deny, none⟩
    let context : FileSystemSandboxPolicyContext := ⟨ofSegments ["home"], [], none, none⟩
    let approved := (restricted [denial]).forApprovedCommand context
    approved ≠ restricted [denial] ∧
      approved.resolveAccess (ofSegments ["secret", "key"]) context = deny ∧
      approved.canWritePath (ofSegments [".git", ".codex", "config"]) context = true := by
  intro _ _ denial context approved
  have hchanged : approved ≠ restricted [denial] := by decide
  rcases forApprovedCommand_access (restricted [denial]) context rfl (by decide) with
    hsame | ⟨root, denied, hroot, hdenied, haccess, hwrite⟩
  · exact absurd hsame hchanged
  · obtain rfl : restricted [denial] = denied := Option.some_inj.mp hdenied
    obtain rfl : ofSegments [""] = root := Option.some_inj.mp hroot
    refine ⟨hchanged, ?_, ?_⟩
    · exact (haccess _ (by decide) (by decide)).1
    · refine (hwrite _).mpr ⟨(haccess _ (by decide) (by decide)).1, ?_⟩
      decide

omit [UrlHosts] [DenyGlobs] in
/-- A path on another drive is not granted; in a metadata directory that a deny glob matches the
write is refused although the access allows it; and a metadata directory is granted inside a denied
share whose name is no text. -/
theorem not_approvesAllElse :
    let _ : UrlHosts := ⟨some⟩
    let _ : DenyGlobs :=
      { Matcher := Str
        build := fun pattern _ => .ok pattern
        isMatch := fun pattern path => asBytes pattern = path
        nativeString := encodedPath
        validateGlobDirectory := fun _ _ => .ok () }
    let drive : FileSystemSandboxPolicyContext := ⟨ofSegments ["C:", "home"], [], none, none⟩
    let home : FileSystemSandboxPolicyContext := ⟨ofSegments ["home"], [], none, none⟩
    let share : FileSystemSandboxPolicyContext :=
      ⟨⟨some "server".toList, ["%41%FF".toList, "home".toList]⟩, [], none, none⟩
    let glob : FileSystemSandboxEntry := ⟨.globPattern "/.git".toList, deny, none⟩
    let denial : FileSystemSandboxEntry :=
      ⟨.path ⟨some "server".toList, ["A%25FF".toList]⟩, deny, none⟩
    ¬ ApprovesAllElse (restricted []) drive ∧ ¬ ApprovesAllElse (restricted [glob]) home ∧
      ¬ ApprovesAllElse (restricted [denial]) share := by
  intro _ _ drive home share glob denial
  refine ⟨?_, ?_, ?_⟩
  · rintro (hsame | ⟨denied, hdenied, haccess⟩)
    · revert hsame
      decide
    · obtain rfl : restricted [] = denied := Option.some_inj.mp hdenied
      have hother := (haccess (ofSegments ["D:", "data"]) (by decide) (by decide)).1
      revert hother
      decide
  · rintro (hsame | ⟨denied, hdenied, haccess⟩)
    · revert hsame
      decide
    · obtain rfl : restricted [glob] = denied := Option.some_inj.mp hdenied
      have hinside := (haccess (ofSegments [".git", "config"]) (by decide) (by decide)).2
      revert hinside
      decide
  · rintro (hsame | ⟨denied, hdenied, haccess⟩)
    · revert hsame
      decide
    · obtain rfl : restricted [denial] = denied := Option.some_inj.mp hdenied
      have hinside := (haccess ⟨some "server".toList, ["A%FF".toList, ".git".toList]⟩ (by decide)
        (by decide)).1
      revert hinside
      decide

end FileSystemSandboxPolicy

end Codex
