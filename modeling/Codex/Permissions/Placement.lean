import Codex.Permissions.Access

/-!
# Policies as rules at places

Where all roots decode to text, a resolved policy is a set of rules, each an access at a
place, and the access at a path is that of the rule that governs its place: the deepest
one at or above it, and among those at one depth the one of highest precedence.  Two
policies are compared in these terms.
-/

namespace Codex

open FileSystemAccessMode PathUri

/-! ## The governing rule -/

/-- The rule at `place` decides at `path`. -/
structure Governs {α : Type*} [LE α] (rules : Set (Location × α)) (path place : Location)
    (access : α) : Prop where
  mem : (place, access) ∈ rules
  below : path.Below place
  max : ∀ other otherAccess, (other, otherAccess) ∈ rules → path.Below other →
    other.depth < place.depth ∨ other.depth = place.depth ∧ otherAccess ≤ access

/-! ## The rules of a policy -/

namespace FileSystemSandboxPolicy

/-- The places of resolved roots, with their access. -/
def places (resolved : List (PathUri × FileSystemAccessMode)) :
    Set (Location × FileSystemAccessMode) :=
  {rule | ∃ root, (root, rule.2) ∈ resolved ∧ root.location = some rule.1}

/-- Every resolved root decodes to text. -/
def TextRoots (resolved : List (PathUri × FileSystemAccessMode)) : Prop :=
  ∀ entry ∈ resolved, entry.1.decodesToText = true

variable {resolved : List (PathUri × FileSystemAccessMode)} {path : PathUri} {place : Location}
  {access : FileSystemAccessMode}

theorem exists_decides_iff_governs (htext : TextRoots resolved)
    (hpath : path.location = some place) :
    (∃ root depth, Decides resolved path root access depth) ↔
      ∃ top, Governs (places resolved) place top access := by
  constructor
  · rintro ⟨root, depth, hdecides⟩
    obtain ⟨top, htop, rfl⟩ := lexicalDepth_eq_some_iff.mp hdecides.depth_eq
    refine ⟨top, ⟨root, hdecides.mem, htop⟩,
      (startsWith_iff_below hpath htop (htext _ hdecides.mem)).mp hdecides.covers, ?_⟩
    rintro other otherAccess ⟨otherRoot, hmem, hother⟩ hbelow
    exact hdecides.max otherRoot otherAccess other.depth hmem
      ((startsWith_iff_below hpath hother (htext _ hmem)).mpr hbelow)
      (lexicalDepth_eq_some_iff.mpr ⟨other, hother, rfl⟩)
  · rintro ⟨top, ⟨root, hmem, htop⟩, hbelow, hmax⟩
    refine ⟨root, top.depth, hmem, (startsWith_iff_below hpath htop (htext _ hmem)).mpr hbelow,
      lexicalDepth_eq_some_iff.mpr ⟨top, htop, rfl⟩, ?_⟩
    intro other otherAccess otherDepth hother hcovers hdepth
    obtain ⟨otherPlace, hplace, rfl⟩ := lexicalDepth_eq_some_iff.mp hdepth
    exact hmax otherPlace otherAccess ⟨other, hother, hplace⟩
      ((startsWith_iff_below hpath hplace (htext _ hother)).mp hcovers)

/-- Some rule governs wherever some rule is at or above the path. -/
theorem exists_governs (htext : TextRoots resolved) (hpath : path.location = some place)
    {above : Location} (hmem : (above, access) ∈ places resolved) (hbelow : place.Below above) :
    ∃ top topAccess, Governs (places resolved) place top topAccess := by
  obtain ⟨root, hroot, habove⟩ := hmem
  obtain ⟨decider, topAccess, depth, hdecides⟩ := exists_decides hroot
    ((startsWith_iff_below hpath habove (htext _ hroot)).mpr hbelow)
    (lexicalDepth_eq_some_iff.mpr ⟨above, habove, rfl⟩)
  obtain ⟨top, hgoverns⟩ := (exists_decides_iff_governs htext hpath).mp ⟨decider, depth, hdecides⟩
  exact ⟨top, topAccess, hgoverns⟩

section

variable [UrlHosts] {policy : FileSystemSandboxPolicy} {context : FileSystemSandboxPolicyContext}

theorem resolveAccess_of_governs (hkind : policy.kind = .restricted)
    (hcomparable : comparable path context = true) (hclear : policy.Unambiguous context)
    (htext : TextRoots (policy.resolvedEntries context)) (hpath : path.location = some place)
    {top : Location} (h : Governs (places (policy.resolvedEntries context)) place top access) :
    policy.resolveAccess path context = access := by
  obtain ⟨root, depth, hdecides⟩ := (exists_decides_iff_governs htext hpath).mpr ⟨top, h⟩
  exact resolveAccess_of_decides hkind hcomparable hclear hdecides

theorem governs_of_resolveAccess (hkind : policy.kind = .restricted)
    (htext : TextRoots (policy.resolvedEntries context)) (hpath : path.location = some place)
    (haccess : policy.resolveAccess path context ≠ deny) :
    comparable path context = true ∧ policy.Unambiguous context ∧
      ∃ top, Governs (places (policy.resolvedEntries context)) place top
        (policy.resolveAccess path context) := by
  obtain ⟨hcomparable, hclear, hdecides⟩ := (resolveAccess_eq_iff_of_ne_deny hkind haccess).mp rfl
  exact ⟨hcomparable, hclear, (exists_decides_iff_governs htext hpath).mp hdecides⟩

end

end FileSystemSandboxPolicy

end Codex
