import Codex.Path.Containment
import Codex.Permissions.Policy
import Mathlib.Data.List.Flatten

/-!
# What decides the access at a path

A restricted policy grants an access at a path exactly if the path can be compared with
the executor's roots, no root is ambiguous, and some root at or above the path gives
that access and no root at or above the path outranks it.

This is `resolveAccess_eq_iff_of_ne_deny`.  As denials only outrank,
`resolveAccess_without_denials` follows from it: without some of them no other access changes.
-/

namespace Codex

open FileSystemAccessMode List

/-- An entry is added unless an equal one is there. -/
def pushNew (entries : List FileSystemSandboxEntry) (entry : FileSystemSandboxEntry) :
    List FileSystemSandboxEntry :=
  if entries.any fun present => present.same entry then entries else entries ++ [entry]

namespace FileSystemSandboxPolicy

/-! ## Entries that are kept once -/

section

variable {entry kept : FileSystemSandboxEntry} {entries output : List FileSystemSandboxEntry}

theorem same_self (entry : FileSystemSandboxEntry) : entry.same entry = true := by
  have hpath : entry.path.same entry.path = true := by
    cases entry.path with
    | path path => exact PathUri.same_refl path
    | globPattern pattern | special value => simp [FileSystemPath.same]
  simp [FileSystemSandboxEntry.same, hpath]

theorem access_of_same (h : kept.same entry = true) : kept.access = entry.access := by
  simp only [FileSystemSandboxEntry.same, Bool.and_eq_true, decide_eq_true_eq] at h
  exact h.1.2

/-- What is pushed comes behind what is there. -/
theorem foldl_pushNew_eq_append (entries output : List FileSystemSandboxEntry) :
    ∃ pushed, entries.foldl pushNew output = output ++ pushed ∧ ∀ entry ∈ pushed, entry ∈ entries := by
  induction entries generalizing output with
  | nil => exact ⟨[], by simp, by simp⟩
  | cons entry rest ih =>
    obtain ⟨pushed, hpushed, hmem⟩ := ih (pushNew output entry)
    rw [foldl_cons, hpushed]
    unfold pushNew
    split_ifs
    · exact ⟨pushed, rfl, fun other hother => mem_cons_of_mem _ (hmem other hother)⟩
    · refine ⟨entry :: pushed, by simp, ?_⟩
      intro other hother
      rcases mem_cons.mp hother with rfl | hrest
      · exact mem_cons_self ..
      · exact mem_cons_of_mem _ (hmem other hrest)

theorem mem_foldl_pushNew_of_mem (h : kept ∈ output) : kept ∈ entries.foldl pushNew output := by
  obtain ⟨pushed, heq, -⟩ := foldl_pushNew_eq_append entries output
  rw [heq]
  exact mem_append_left _ h

/-- Nothing is lost up to equality of entries. -/
theorem exists_same_foldl_pushNew (h : entry ∈ entries) :
    ∃ kept ∈ entries.foldl pushNew output, kept.same entry = true := by
  induction entries generalizing output with
  | nil => cases h
  | cons first rest ih =>
    rw [foldl_cons]
    rcases mem_cons.mp h with rfl | hrest
    · have hpushed : ∃ kept ∈ pushNew output entry, kept.same entry = true := by
        unfold pushNew
        split_ifs with hpresent
        · exact any_eq_true.mp hpresent
        · exact ⟨entry, by simp, same_self entry⟩
      obtain ⟨kept, hkept, hsame⟩ := hpushed
      exact ⟨kept, mem_foldl_pushNew_of_mem hkept, hsame⟩
    · exact ih hrest

end

/-! ## The deciding root -/

theorem mem_filterMap_ruleOf {entries : List (PathUri × FileSystemAccessMode)}
    {rule : Rule PathUri FileSystemAccessMode} :
    rule ∈ entries.filterMap ruleOf ↔
      (rule.root, rule.access) ∈ entries ∧ rule.root.lexicalDepth = some rule.depth := by
  simp only [mem_filterMap, ruleOf, Option.map_eq_some_iff]
  constructor
  · rintro ⟨entry, hentry, depth, hdepth, rfl⟩
    exact ⟨hentry, hdepth⟩
  · rintro ⟨hentry, hdepth⟩
    exact ⟨_, hentry, rule.depth, hdepth, rfl⟩

/-- The root gives its access at the path: it is at or above it, and no resolved root at or above
it is deeper, or as deep with an access of higher precedence. -/
structure Decides (resolved : List (PathUri × FileSystemAccessMode)) (path root : PathUri)
    (access : FileSystemAccessMode) (depth : ℕ) : Prop where
  mem : (root, access) ∈ resolved
  covers : path.startsWith root = true
  depth_eq : root.lexicalDepth = some depth
  max : ∀ other otherAccess otherDepth, (other, otherAccess) ∈ resolved →
    path.startsWith other = true → other.lexicalDepth = some otherDepth →
    otherDepth < depth ∨ otherDepth = depth ∧ otherAccess ≤ access

variable {policy : FileSystemSandboxPolicy} {path : PathUri}
  {context : FileSystemSandboxPolicyContext} {access : FileSystemAccessMode}

variable {resolved : List (PathUri × FileSystemAccessMode)}

theorem governing_access_eq_some_iff_decides :
    (Rule.governing path.startsWith (resolved.filterMap ruleOf)).map Rule.access = some access ↔
      ∃ root depth, Decides resolved path root access depth := by
  rw [Rule.governing_access_eq_some_iff]
  constructor
  · rintro ⟨rule, hrule, hcovers, rfl, hmax⟩
    obtain ⟨hmem, hdepth⟩ := mem_filterMap_ruleOf.mp hrule
    refine ⟨rule.root, rule.depth, hmem, hcovers, hdepth, ?_⟩
    intro other otherAccess otherDepth hother hotherCovers hotherDepth
    exact Prod.Lex.toLex_le_toLex.mp (hmax ⟨other, otherAccess, otherDepth⟩
      (mem_filterMap_ruleOf.mpr ⟨hother, hotherDepth⟩) hotherCovers)
  · rintro ⟨root, depth, hdecides⟩
    refine ⟨⟨root, access, depth⟩, mem_filterMap_ruleOf.mpr ⟨hdecides.mem, hdecides.depth_eq⟩,
      hdecides.covers, rfl, ?_⟩
    intro other hother hcovers
    obtain ⟨hmem, hdepth⟩ := mem_filterMap_ruleOf.mp hother
    exact Prod.Lex.toLex_le_toLex.mpr (hdecides.max _ _ _ hmem hcovers hdepth)

variable {root : PathUri}

/-- Some root decides wherever some root is at or above the path. -/
theorem exists_decides {depth : ℕ} (hmem : (root, access) ∈ resolved)
    (hcovers : path.startsWith root = true) (hdepth : root.lexicalDepth = some depth) :
    ∃ top topAccess topDepth, Decides resolved path top topAccess topDepth := by
  have hrule : (⟨root, access, depth⟩ : Rule PathUri FileSystemAccessMode) ∈
      resolved.filterMap ruleOf := mem_filterMap_ruleOf.mpr ⟨hmem, hdepth⟩
  obtain ⟨top, htop⟩ := Rule.exists_governing hrule hcovers
  obtain ⟨topRoot, topDepth, hdecides⟩ :=
    governing_access_eq_some_iff_decides.mp (Option.map_eq_some_iff.mpr ⟨top, htop, rfl⟩)
  exact ⟨topRoot, top.access, topDepth, hdecides⟩

section

variable [UrlHosts]

theorem inferPathConvention_of_mem (h : (root, access) ∈ policy.resolvedEntries context) :
    root.inferPathConvention = context.convention := by
  obtain ⟨entry, -, hroot, -⟩ := mem_resolvedEntries.mp h
  simpa using (mem_filter.mp hroot).2

/-- No resolved root makes the policy fail closed. -/
def Unambiguous (policy : FileSystemSandboxPolicy) (context : FileSystemSandboxPolicyContext) :
    Prop :=
  ∀ resolved ∈ policy.resolvedEntries context, ambiguousRoot resolved.1 = false

theorem resolveAccess_of_decides (hkind : policy.kind = .restricted)
    (hcomparable : comparable path context = true) (hclear : policy.Unambiguous context) {depth : ℕ}
    (h : Decides (policy.resolvedEntries context) path root access depth) :
    policy.resolveAccess path context = access := by
  have hgoverning := governing_access_eq_some_iff_decides.mpr ⟨root, depth, h⟩
  have hany : ((policy.resolvedEntries context).any fun entry => ambiguousRoot entry.1) = false := by
    rw [any_eq_false]
    intro entry hentry
    simp [hclear entry hentry]
  simp only [resolveAccess, hkind, rulesOf_eq, hcomparable, hany, if_true, Bool.false_eq_true,
    if_false, hgoverning, Option.getD_some]

theorem resolveAccess_eq_iff_of_ne_deny (hkind : policy.kind = .restricted) (haccess : access ≠ deny) :
    policy.resolveAccess path context = access ↔
      comparable path context = true ∧ policy.Unambiguous context ∧
        ∃ root depth, Decides (policy.resolvedEntries context) path root access depth := by
  have hambiguous : ((policy.resolvedEntries context).any fun entry => ambiguousRoot entry.1) =
      true ↔ ¬ policy.Unambiguous context := by
    simp [Unambiguous]
  rw [← governing_access_eq_some_iff_decides]
  simp only [resolveAccess, hkind, rulesOf_eq]
  by_cases hcomparable : comparable path context = true
  · by_cases hany : policy.Unambiguous context
    · rw [if_pos hcomparable, if_neg (by rw [hambiguous, not_not]; exact hany)]
      dsimp only
      cases (Rule.governing path.startsWith
          ((policy.resolvedEntries context).filterMap ruleOf)).map Rule.access with
      | none => simp [haccess.symm]
      | some granted => simp [hcomparable, hany]
    · rw [if_pos (hambiguous.mpr hany)]
      simp [hany, haccess.symm]
  · rw [if_neg hcomparable]
    simp [hcomparable, haccess.symm]

/-- Taking denials out of a policy changes the access only where it was denied. -/
theorem resolveAccess_without_denials (entries : List FileSystemSandboxEntry)
    (keep : FileSystemSandboxEntry → Bool) :
    let fewer := entries.filter fun entry => entry.access ≠ deny || keep entry
    (restricted entries).resolveAccess path context = deny ∨
      (restricted fewer).resolveAccess path context =
        (restricted entries).resolveAccess path context := by
  intro fewer
  refine or_iff_not_imp_left.mpr fun hne => ?_
  obtain ⟨hcomparable, hclear, root, depth, hroot, hcovers, hdepth, hmax⟩ :=
    (resolveAccess_eq_iff_of_ne_deny rfl hne).mp rfl
  have hsub : (restricted fewer).resolvedEntries context ⊆
      (restricted entries).resolvedEntries context := (filter_sublist.flatMap _).subset
  obtain ⟨entry, hentry, hmem, haccess⟩ := mem_resolvedEntries.mp hroot
  have hkept : entry ∈ fewer := mem_filter.mpr ⟨hentry, by simp [haccess, hne]⟩
  exact (resolveAccess_eq_iff_of_ne_deny rfl hne).mpr ⟨hcomparable,
    fun other hother => hclear other (hsub hother), root, depth,
    mem_resolvedEntries.mpr ⟨entry, hkept, hmem, haccess⟩, hcovers, hdepth,
    fun other access n hother => hmax other access n (hsub hother)⟩

end

end FileSystemSandboxPolicy

end Codex
