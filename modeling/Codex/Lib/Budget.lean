import Mathlib.Algebra.GroupWithZero.Nat
import Mathlib.Data.List.Basic

/-!
# The longest beginning of a list within a budget

So many items, and so much size in all.  What fits is found by taking items from the front, and also
by dropping items from the end until the rest fits.  The longest end of a list that grows is found
from the one before it (`IsLongestEnd.concat`).
-/

namespace Codex.Budget

open List

variable {α : Type*} (size : α → ℕ)

def total (items : List α) : ℕ := (items.map size).sum

@[simp] theorem total_nil : total size [] = 0 := rfl

@[simp] theorem total_cons (a : α) (items : List α) :
    total size (a :: items) = size a + total size items := rfl

theorem total_append (items more : List α) :
    total size (items ++ more) = total size items + total size more := by
  rw [total, map_append, sum_append, total, total]

theorem total_reverse (items : List α) : total size items.reverse = total size items := by
  rw [total, total, map_reverse, sum_reverse]

variable {items : List α}

theorem le_total_of_mem {a : α} (h : a ∈ items) : size a ≤ total size items := by
  obtain ⟨front, back, rfl⟩ := append_of_mem h
  rw [total_append, total_cons]
  omega

def Fits (count bytes : ℕ) (items : List α) : Prop :=
  items.length ≤ count ∧ total size items ≤ bytes

variable {bytes count : ℕ}

theorem fits_of_isSuffix {size : α → ℕ} {last : List α} (hsuffix : last <:+ items)
    (h : Fits size count bytes items) : Fits size count bytes last := by
  obtain ⟨first, rfl⟩ := hsuffix
  obtain ⟨hlength, htotal⟩ := h
  rw [length_append] at hlength
  rw [total_append] at htotal
  exact ⟨by omega, by omega⟩

/-- The longest end of the items that fits. -/
structure IsLongestEnd (count bytes : ℕ) (items last : List α) : Prop where
  isSuffix : last <:+ items
  fits : Fits size count bytes last
  longest : ∀ other, other <:+ items → Fits size count bytes other → other <:+ last

/-- What fits is its own longest end. -/
theorem IsLongestEnd.of_fits {size : α → ℕ} (h : Fits size count bytes items) :
    IsLongestEnd size count bytes items items :=
  ⟨suffix_rfl, h, fun _ hother _ => hother⟩

/-- What an item more leaves of the longest end is the longest end of all. -/
theorem IsLongestEnd.concat {size : α → ℕ} {last kept : List α} {a : α}
    (h : IsLongestEnd size count bytes items last)
    (hkept : IsLongestEnd size count bytes (last ++ [a]) kept) :
    IsLongestEnd size count bytes (items ++ [a]) kept := by
  have happend : last ++ [a] <:+ items ++ [a] := by
    obtain ⟨first, rfl⟩ := h.isSuffix
    exact ⟨first, (append_assoc ..).symm⟩
  refine ⟨hkept.isSuffix.trans happend, hkept.fits, fun other hother hfits => ?_⟩
  rcases suffix_concat_iff.mp hother with rfl | ⟨front, rfl, hfront⟩
  · exact nil_suffix
  · obtain ⟨hlength, htotal⟩ := hfits
    have hfrontFits : Fits size count bytes front := by
      rw [length_append] at hlength
      rw [total_append] at htotal
      exact ⟨by omega, by omega⟩
    obtain ⟨before, hbefore⟩ := h.longest front hfront hfrontFits
    refine hkept.longest _ ⟨before, ?_⟩ ⟨hlength, htotal⟩
    rw [← hbefore, append_assoc]

def takeWithin : ℕ → ℕ → List α → List α
  | 0, _, _ => []
  | _ + 1, _, [] => []
  | count + 1, bytes, a :: items =>
    if size a ≤ bytes then a :: takeWithin count (bytes - size a) items else []

@[simp] theorem takeWithin_nil (count bytes : ℕ) : takeWithin size count bytes [] = [] := by
  cases count <;> rfl

theorem takeWithin_cons {a : α} (hcount : 0 < count) (hsize : size a ≤ bytes) (items : List α) :
    takeWithin size count bytes (a :: items) =
      a :: takeWithin size (count - 1) (bytes - size a) items := by
  cases count with
  | zero => omega
  | succ count => rw [takeWithin, if_pos hsize, Nat.add_sub_cancel]

theorem takeWithin_cons_of_lt {a : α} (hsize : bytes < size a) (count : ℕ) (items : List α) :
    takeWithin size count bytes (a :: items) = [] := by
  cases count with
  | zero => rfl
  | succ count => rw [takeWithin, if_neg (Nat.not_le_of_lt hsize)]

theorem takeWithin_isPrefix (count bytes : ℕ) (items : List α) :
    takeWithin size count bytes items <+: items := by
  induction items generalizing count bytes with
  | nil => simp only [takeWithin_nil, prefix_rfl]
  | cons a items ih =>
    cases count with
    | zero => exact List.nil_prefix
    | succ count =>
      rw [takeWithin]
      split_ifs
      · exact cons_prefix_cons.mpr ⟨rfl, ih count _⟩
      · exact List.nil_prefix

theorem fits_takeWithin (count bytes : ℕ) (items : List α) :
    Fits size count bytes (takeWithin size count bytes items) := by
  induction items generalizing count bytes with
  | nil =>
    rw [takeWithin_nil]
    exact ⟨Nat.zero_le _, Nat.zero_le _⟩
  | cons a items ih =>
    cases count with
    | zero => exact ⟨Nat.zero_le _, Nat.zero_le _⟩
    | succ count =>
      rw [takeWithin]
      split_ifs with hsize
      · obtain ⟨hlength, htotal⟩ := ih count (bytes - size a)
        refine ⟨Nat.succ_le_succ hlength, ?_⟩
        rw [total_cons]
        omega
      · exact ⟨Nat.zero_le _, Nat.zero_le _⟩

theorem takeWithin_eq_self (h : Fits size count bytes items) :
    takeWithin size count bytes items = items := by
  induction items generalizing count bytes with
  | nil => rw [takeWithin_nil]
  | cons a items ih =>
    obtain ⟨hlength, htotal⟩ := h
    rw [length_cons] at hlength
    rw [total_cons] at htotal
    cases count with
    | zero => omega
    | succ count => rw [takeWithin, if_pos (by omega), ih ⟨by omega, by omega⟩]

/-- An item at the end makes no difference if it does not fit. -/
theorem takeWithin_concat {a : α} (h : ¬Fits size count bytes (items ++ [a])) :
    takeWithin size count bytes (items ++ [a]) = takeWithin size count bytes items := by
  induction items generalizing count bytes with
  | nil =>
    cases count with
    | zero => rfl
    | succ count =>
      have hsize : ¬size a ≤ bytes := fun hle => h ⟨by simp, by simpa using hle⟩
      rw [takeWithin_nil, nil_append, takeWithin, if_neg hsize]
  | cons b items ih =>
    cases count with
    | zero => rfl
    | succ count =>
      rw [cons_append, takeWithin, takeWithin]
      split_ifs with hsize
      · rw [ih]
        rintro ⟨hlength, htotal⟩
        refine h ⟨Nat.succ_le_succ hlength, ?_⟩
        rw [cons_append, total_cons]
        omega
      · rfl

/-- A smaller budget takes from what a larger one has taken. -/
theorem takeWithin_takeWithin {count' bytes' : ℕ} (hcount : count' ≤ count)
    (hbytes : bytes' ≤ bytes) (items : List α) :
    takeWithin size count' bytes' (takeWithin size count bytes items) =
      takeWithin size count' bytes' items := by
  induction items generalizing count bytes count' bytes' with
  | nil => rw [takeWithin_nil]
  | cons a items ih =>
    cases count' with
    | zero => rfl
    | succ count' =>
      cases count with
      | zero => omega
      | succ count =>
        by_cases hsize : size a ≤ bytes'
        · rw [takeWithin, if_pos (Nat.le_trans hsize hbytes), takeWithin, if_pos hsize, takeWithin,
            if_pos hsize, ih (by omega) (by omega)]
        · by_cases hlarge : size a ≤ bytes
          · rw [takeWithin, if_pos hlarge, takeWithin, if_neg hsize, takeWithin, if_neg hsize]
          · rw [takeWithin, if_neg hlarge, takeWithin_nil, takeWithin, if_neg hsize]

end Codex.Budget
