import Codex.ApplyPatch.FileUpdate
import Mathlib.Order.Bounds.Basic

/-!
# Finding lines

`seek_sequence` makes four passes over the windows of a file, each through a coarser view of the
lines.  A view is computed from the one before it, so that what one pass finds all later ones find,
and only the last pass decides whether anything is found.

`strictest_match_found` says both: what is not found is not there at the coarsest level, and what
is found is the first match at the strictest level that has one.  A pass is the least element of a
set of windows (`findWindow_eq_some_iff`), and the sets grow from view to view (`views_pairwise`).
-/

namespace Codex.ApplyPatch

open Text List

/-- How the passes read a line. -/
def views : List (Str → Str) := [id, trimEnd, trim, normalise]

/-- The indices from `first` on at which the lines are the pattern, both read through `view`. -/
def windows (lines pattern : List Str) (first : ℕ) (view : Str → Str) : Set ℕ :=
  {i | first ≤ i ∧ i + pattern.length ≤ lines.length ∧
    ((lines.drop i).take pattern.length).map view = pattern.map view}

/-- The index at which every pass begins. -/
def searchFrom (lines pattern : List Str) (start : ℕ) (eof : Bool) : ℕ :=
  if eof then max (lines.length - pattern.length) start else start

variable {view : Str → Str} {lines pattern : List Str} {first start i : ℕ} {eof : Bool}

theorem windows_subset (f : Str → Str) :
    windows lines pattern first view ⊆ windows lines pattern first (f ∘ view) := by
  rintro i ⟨hfirst, hlength, hagree⟩
  refine ⟨hfirst, hlength, ?_⟩
  rw [← map_map, ← map_map, hagree]

/-- What is found through a view is found through the later ones. -/
theorem views_pairwise : views.Pairwise fun view coarser =>
    windows lines pattern first view ⊆ windows lines pattern first coarser := by
  have htrim : trim = trim ∘ trimEnd := funext fun line => (trim_trimEnd line).symm
  have : IsTrans (Str → Str) fun view coarser =>
      windows lines pattern first view ⊆ windows lines pattern first coarser :=
    ⟨fun _ _ _ => Set.Subset.trans⟩
  refine isChain_iff_pairwise.mp ?_
  refine .cons_cons (windows_subset trimEnd) (.cons_cons ?_ (.cons_cons
    (windows_subset (map normaliseChar)) (.singleton _)))
  rw [htrim]
  exact windows_subset trim

theorem mem_windows_iff : i ∈ windows lines pattern first view ↔
    i ∈ range' first (lines.length + 1 - pattern.length - first) ∧
      ((lines.drop i).take pattern.length).map view == pattern.map view := by
  rw [windows, Set.mem_ofPred_eq, mem_range'_1, beq_iff_eq, ← and_assoc]
  refine and_congr_left fun _ => ?_
  omega

theorem findWindow_eq_none_iff :
    findWindow view lines pattern first = none ↔ windows lines pattern first view = ∅ := by
  simp only [findWindow, find?_eq_none, Set.eq_empty_iff_forall_notMem, mem_windows_iff, not_and]

theorem findWindow_eq_some_iff :
    findWindow view lines pattern first = some i ↔ IsLeast (windows lines pattern first view) i := by
  rw [findWindow, find?_range'_eq_some]
  constructor
  · rintro ⟨hagree, hrange, hleast⟩
    refine ⟨mem_windows_iff.mpr ⟨hrange, hagree⟩, fun j hj => Nat.le_of_not_lt fun hlt => ?_⟩
    simpa [hj.2.2] using hleast j hj.1 hlt
  · rintro ⟨hfound, hleast⟩
    obtain ⟨hrange, hagree⟩ := mem_windows_iff.mp hfound
    refine ⟨hagree, hrange, fun j hfirst hlt => ?_⟩
    rw [Bool.not_eq_true', Bool.eq_false_iff]
    intro hj
    have := mem_range'_1.mp hrange
    have := hleast (mem_windows_iff.mpr ⟨mem_range'_1.mpr (by omega), hj⟩)
    omega

/-- The length of the pattern need not be looked at first. -/
theorem seekSequence_eq (hpattern : pattern ≠ []) : seekSequence lines pattern start eof =
    views.findSome? (findWindow · lines pattern (searchFrom lines pattern start eof)) := by
  rw [seekSequence, if_neg (by simpa using hpattern)]
  rcases Nat.lt_or_ge lines.length pattern.length with hshort | hlong
  · rw [if_pos hshort, eq_comm, findSome?_eq_none_iff]
    refine fun view _ => findWindow_eq_none_iff.mpr (Set.eq_empty_of_forall_notMem fun i h => ?_)
    have := h.2.1
    omega
  · rw [if_neg hlong.not_gt]
    simp only [views, findSome?, searchFrom]
    generalize findWindow id _ _ _ = a
    generalize findWindow trimEnd _ _ _ = b
    generalize findWindow trim _ _ _ = c
    generalize findWindow normalise _ _ _ = d
    cases a <;> cases b <;> cases c <;> cases d <;> rfl

/-- Nothing is found exactly if nothing matches at the last level; otherwise it is the first match
at the strictest level that has one. -/
theorem strictest_match_found (lines pattern : List Str) (start : ℕ) (eof : Bool)
    (hpattern : pattern ≠ []) :
    let found := windows lines pattern (searchFrom lines pattern start eof)
    (seekSequence lines pattern start eof = none ↔ found normalise = ∅) ∧
      (∀ i, seekSequence lines pattern start eof = some i ↔
        ∃ stricter view coarser, views = stricter ++ view :: coarser ∧ IsLeast (found view) i ∧
          ∀ view' ∈ stricter, found view' = ∅) ∧
      views.Pairwise fun view coarser => found view ⊆ found coarser := by
  intro found
  have hviews : views.Pairwise fun view coarser => found view ⊆ found coarser := views_pairwise
  refine ⟨?_, fun i => ?_, hviews⟩
  · rw [seekSequence_eq hpattern, findSome?_eq_none_iff]
    simp only [findWindow_eq_none_iff]
    refine ⟨fun h => h _ (by simp [views]), fun h view hview => ?_⟩
    -- the last view is the coarsest
    have hsplit : views = [id, trimEnd, trim] ++ [normalise] := rfl
    rw [hsplit] at hview hviews
    rcases mem_append.mp hview with hstrict | hlast
    · have hsubset := (pairwise_append.mp hviews).2.2 view hstrict normalise (mem_singleton_self _)
      exact Set.subset_empty_iff.mp (h ▸ hsubset)
    · rwa [mem_singleton.mp hlast]
  · rw [seekSequence_eq hpattern, findSome?_eq_some_iff]
    simp only [findWindow_eq_some_iff, findWindow_eq_none_iff]
    rfl

/-- No line is the pattern.  Two are, up to blanks at the end, and the first of them is found,
although the line before it is the pattern up to all blanks. -/
theorem strictest_match_found_respaced :
    let lines : List Str := [[' ', 'x'], ['x', ' '], [' ', 'x'], ['x', '\t']]
    let found := windows lines [['x']] 0
    [['x']] ≠ ([] : List Str) ∧ seekSequence lines [['x']] 0 false = some 1 ∧
      found normalise ≠ ∅ ∧
      ∃ stricter view coarser, views = stricter ++ view :: coarser ∧ IsLeast (found view) 1 ∧
        ∀ view' ∈ stricter, found view' = ∅ := by
  intro lines found
  have hsome : seekSequence lines [['x']] 0 false = some 1 := by decide
  obtain ⟨hnone, hfirst, -⟩ := strictest_match_found lines [['x']] 0 false (by decide)
  refine ⟨by decide, hsome, fun hempty => ?_, (hfirst 1).mp hsome⟩
  rw [hnone.mpr hempty] at hsome
  cases hsome

end Codex.ApplyPatch
