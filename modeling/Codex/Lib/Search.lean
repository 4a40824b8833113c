import Mathlib.Data.List.Infix
import Mathlib.Data.Nat.Find

/-!
# Searching a text that is still coming in

The first occurrence of a needle in a text, and the longest end of the text that could be the
beginning of an occurrence.  A search that has failed so far has to keep only that end
(`find_append_of_none`): an occurrence in the longer text does not start before it.
-/

namespace Codex

open List

namespace Search

variable {α : Type*} [DecidableEq α]

/-- The position of the first occurrence. -/
def find (needle : List α) : List α → Option ℕ
  | [] => if needle = [] then some 0 else none
  | a :: text => if needle <+: a :: text then some 0 else (find needle text).map (· + 1)

def longestFrom (text needle : List α) : ℕ → ℕ
  | 0 => 0
  | k + 1 => if needle.take (k + 1) <:+ text then k + 1 else longestFrom text needle k

/-- The length of the longest end of the text that is a beginning of the needle, but not all
of it. -/
def longestSuffixPrefixLen (text needle : List α) : ℕ :=
  longestFrom text needle (min text.length (needle.length - 1))

omit [DecidableEq α] in
/-- The needle stands at the position. -/
def OccursAt (needle text : List α) (i : ℕ) : Prop := needle <+: text.drop i

variable {needle text more : List α} {i : ℕ}

omit [DecidableEq α] in
theorem OccursAt.add_length_le (hne : needle ≠ []) (h : OccursAt needle text i) :
    i + needle.length ≤ text.length := by
  have hlength := h.length_le
  have hpos := length_pos_of_ne_nil hne
  rw [length_drop] at hlength
  omega

omit [DecidableEq α] in
theorem OccursAt.append (hne : needle ≠ []) (h : OccursAt needle text i) (more : List α) :
    OccursAt needle (text ++ more) i := by
  have hle := h.add_length_le hne
  rw [OccursAt, drop_append_of_le_length (by omega)]
  exact h.trans (prefix_append _ _)

omit [DecidableEq α] in
/-- An occurrence that ends within the text is one in the text. -/
theorem OccursAt.of_append (h : OccursAt needle (text ++ more) i)
    (hle : i + needle.length ≤ text.length) : OccursAt needle text i := by
  rw [OccursAt, drop_append_of_le_length (by omega)] at h
  apply prefix_of_prefix_length_le h (prefix_append _ _)
  rw [length_drop]
  omega

/-! ## The first occurrence -/

section

variable (hne : needle ≠ [])
include hne

theorem find_eq_some_iff :
    find needle text = some i ↔ OccursAt needle text i ∧ ∀ j < i, ¬ OccursAt needle text j := by
  induction text generalizing i with
  | nil =>
    have hnone : ∀ j, ¬ OccursAt needle [] j := by
      intro j h
      exact hne (prefix_nil.mp (by simpa [OccursAt] using h))
    simp [find, hne, hnone]
  | cons a text ih =>
    rw [find]
    split_ifs with hhead
    · constructor
      · intro h
        cases h
        exact ⟨hhead, by omega⟩
      · rintro ⟨-, hfirst⟩
        by_contra hi
        exact hfirst 0 (Nat.pos_of_ne_zero fun h => hi (by rw [h])) hhead
    · cases i with
      | zero => simp [OccursAt, hhead]
      | succ i =>
        have hmap : (find needle text).map (· + 1) = some (i + 1) ↔ find needle text = some i := by
          simp
        rw [hmap, ih]
        refine and_congr_right fun _ => ⟨fun h j hj => ?_, fun h j hj => h (j + 1) (by omega)⟩
        cases j with
        | zero => exact hhead
        | succ j => exact h j (by omega)

theorem find_eq_none_iff : find needle text = none ↔ ∀ i, ¬ OccursAt needle text i := by
  constructor
  · intro hnone i h
    -- there is a first one among the occurrences
    classical
    have hexists : ∃ i, OccursAt needle text i := ⟨i, h⟩
    have hsome : find needle text = some (Nat.find hexists) :=
      (find_eq_some_iff hne).mpr ⟨Nat.find_spec hexists, fun j hj => Nat.find_min hexists hj⟩
    simp [hnone] at hsome
  · intro hnone
    cases hfind : find needle text with
    | none => rfl
    | some i => exact absurd ((find_eq_some_iff hne).mp hfind).1 (hnone i)

theorem add_length_le_of_find (h : find needle text = some i) : i + needle.length ≤ text.length :=
  ((find_eq_some_iff hne).mp h).1.add_length_le hne

/-- What follows an occurrence is shorter. -/
theorem length_drop_lt_of_find (h : find needle text = some i) :
    (text.drop (i + needle.length)).length < text.length := by
  have hle := add_length_le_of_find hne h
  have hpos := length_pos_of_ne_nil hne
  rw [length_drop]
  omega

/-- What has been found stays the first occurrence. -/
theorem find_append_of_some (h : find needle text = some i) (more : List α) :
    find needle (text ++ more) = some i := by
  have hle := add_length_le_of_find hne h
  obtain ⟨hoccurs, hfirst⟩ := (find_eq_some_iff hne).mp h
  refine (find_eq_some_iff hne).mpr ⟨hoccurs.append hne more, fun j hj hearlier => ?_⟩
  exact hfirst j hj (hearlier.of_append (by omega))

/-- A beginning without an occurrence can be passed. -/
theorem find_eq_map_find_drop {n : ℕ} (h : ∀ i < n, ¬ OccursAt needle text i) :
    find needle text = (find needle (text.drop n)).map (· + n) := by
  have hdrop : ∀ i, OccursAt needle (text.drop n) i ↔ OccursAt needle text (i + n) := by
    intro i
    rw [OccursAt, OccursAt, drop_drop, Nat.add_comm]
  cases hfind : find needle (text.drop n) with
  | none =>
    rw [find_eq_none_iff hne] at hfind
    refine (find_eq_none_iff hne).mpr fun i hoccurs => ?_
    have hle : n ≤ i := not_lt.mp fun hlt => h i hlt hoccurs
    apply hfind (i - n)
    rw [hdrop, Nat.sub_add_cancel hle]
    exact hoccurs
  | some i =>
    obtain ⟨hoccurs, hfirst⟩ := (find_eq_some_iff hne).mp hfind
    refine (find_eq_some_iff hne).mpr ⟨(hdrop i).mp hoccurs, fun j hj hearlier => ?_⟩
    have hbound : j < i + n := hj
    by_cases hlt : j < n
    · exact h j hlt hearlier
    · apply hfirst (j - n) (by omega)
      rw [hdrop, Nat.sub_add_cancel (not_lt.mp hlt)]
      exact hearlier

end

/-! ## The end that has to be kept -/

theorem longestFrom_le (text needle : List α) (bound : ℕ) :
    longestFrom text needle bound ≤ bound := by
  induction bound with
  | zero => exact le_rfl
  | succ k ih =>
    rw [longestFrom]
    split_ifs
    · exact le_rfl
    · omega

theorem longestSuffixPrefixLen_lt (text : List α) (hne : needle ≠ []) :
    longestSuffixPrefixLen text needle < needle.length := by
  have hle := (longestFrom_le text needle (min text.length (needle.length - 1))).trans
    (min_le_right _ _)
  have hpos := length_pos_of_ne_nil hne
  rw [longestSuffixPrefixLen]
  omega

theorem le_longestFrom {k bound : ℕ} (hk : k ≤ bound) (h : needle.take k <:+ text) :
    k ≤ longestFrom text needle bound := by
  induction bound with
  | zero => omega
  | succ bound ih =>
    rw [longestFrom]
    split_ifs with hlast
    · exact hk
    · apply ih
      rcases Nat.lt_or_eq_of_le hk with hlt | rfl
      · omega
      · exact absurd h hlast

/-- An occurrence in the longer text starts in the end that is kept. -/
theorem sub_longest_le_of_occursAt (hnone : ∀ j, ¬ OccursAt needle text j)
    (h : OccursAt needle (text ++ more) i) :
    text.length - longestSuffixPrefixLen text needle ≤ i := by
  by_cases hend : i + needle.length ≤ text.length
  · exact absurd (h.of_append hend) (hnone i)
  by_cases hi : text.length ≤ i
  · omega
  -- the text ends inside of the occurrence
  have hlength : (text.drop i).length = text.length - i := length_drop
  have htake : needle.take (text.length - i) = text.drop i := by
    rw [OccursAt, drop_append_of_le_length (by omega)] at h
    rw [prefix_iff_eq_take.mp h, take_take, min_eq_left (by omega), ← hlength, take_left]
  have hle : text.length - i ≤ longestSuffixPrefixLen text needle := by
    apply le_longestFrom
    · omega
    · rw [htake]
      exact drop_suffix i text
  omega

/-- What a failed search need not keep. -/
def passed (text needle : List α) : List α :=
  text.take (text.length - longestSuffixPrefixLen text needle)

/-- What it has to keep, in case that more is coming. -/
def kept (text needle : List α) : List α :=
  text.drop (text.length - longestSuffixPrefixLen text needle)

theorem passed_append_kept (text needle : List α) : passed text needle ++ kept text needle = text :=
  take_append_drop _ _

theorem length_kept_lt (text : List α) (hne : needle ≠ []) :
    (kept text needle).length < needle.length := by
  have hlt := longestSuffixPrefixLen_lt text hne
  rw [kept, length_drop]
  omega

/-- The search that has failed goes on from the end that is kept. -/
theorem find_append_of_none (hne : needle ≠ []) (h : find needle text = none) (more : List α) :
    find needle (passed text needle ++ (kept text needle ++ more)) =
      (find needle (kept text needle ++ more)).map (· + (passed text needle).length) := by
  have hnone := (find_eq_none_iff hne).mp h
  have hlength : (passed text needle).length = text.length - longestSuffixPrefixLen text needle :=
    length_take_of_le (Nat.sub_le _ _)
  have hpass : ∀ i < (passed text needle).length,
      ¬ OccursAt needle (passed text needle ++ (kept text needle ++ more)) i := by
    intro i hi hoccurs
    rw [← List.append_assoc, passed_append_kept] at hoccurs
    have hle := sub_longest_le_of_occursAt hnone hoccurs
    omega
  rw [find_eq_map_find_drop hne hpass, drop_left]

theorem find_eq_none_of_length_lt (h : text.length < needle.length) : find needle text = none := by
  have hne : needle ≠ [] := by
    rintro rfl
    simp at h
  refine (find_eq_none_iff hne).mpr fun i hoccurs => ?_
  have hle := hoccurs.add_length_le hne
  omega

end Search

end Codex
