import Mathlib.Data.List.Induction

/-!
# Rows

A list is cut into rows behind every separator.  The last row may be without one.  The rows can be
found from the front, one separator after another, and from the back (`rowsBack`): there a row is
complete when the separator of the row before it is met.
-/

namespace Codex.Rows

open List

variable {α : Type*} [DecidableEq α] (separator : α)

/-- The rows of a list, each with its separator. -/
def rows : List α → List (List α)
  | [] => []
  | a :: l =>
    if a = separator then [a] :: rows l
    else
      match rows l with
      | [] => [[a]]
      | row :: later => (a :: row) :: later

@[simp] theorem rows_nil : rows separator [] = [] := rfl

theorem rows_ne_nil {l : List α} (h : l ≠ []) : rows separator l ≠ [] := by
  cases l with
  | nil => exact absurd rfl h
  | cons a l =>
    rw [rows]
    split_ifs
    · simp
    · split <;> simp

@[simp] theorem flatten_rows (l : List α) : (rows separator l).flatten = l := by
  induction l with
  | nil => rfl
  | cons a l ih =>
    rw [rows]
    split_ifs
    · rw [flatten_cons, ih, singleton_append]
    · cases hrows : rows separator l with
      | nil | cons row later =>
        rw [hrows] at ih
        simp [← ih]

theorem rows_of_notMem {l : List α} (hne : l ≠ []) (h : separator ∉ l) : rows separator l = [l] := by
  induction l with
  | nil => exact absurd rfl hne
  | cons a l ih =>
    have hfirst : a ≠ separator := fun heq => h (by rw [heq]; exact mem_cons_self)
    rw [rows, if_neg hfirst]
    by_cases hl : l = []
    · rw [hl, rows_nil]
    · rw [ih hl fun hmem => h (mem_cons_of_mem _ hmem)]

/-- The rows before a separator and those behind it. -/
theorem rows_append_separator (front back : List α) :
    rows separator (front ++ separator :: back) =
      rows separator (front ++ [separator]) ++ rows separator back := by
  induction front with
  | nil => simp [rows]
  | cons a front ih =>
    rw [cons_append, cons_append, rows, rows]
    split_ifs
    · rw [ih, cons_append]
    · rw [ih]
      cases hrows : rows separator (front ++ [separator]) with
      | nil => exact absurd hrows (rows_ne_nil separator (by simp))
      | cons row later => rfl

/-- The first row. -/
theorem rows_eq_cons {front : List α} (h : separator ∉ front) (back : List α) :
    rows separator (front ++ separator :: back) = (front ++ [separator]) :: rows separator back := by
  induction front with
  | nil => simp [rows]
  | cons a front ih =>
    have hfirst : a ≠ separator := fun heq => h (by rw [heq]; exact mem_cons_self)
    rw [cons_append, rows, if_neg hfirst, ih fun hmem => h (mem_cons_of_mem _ hmem)]
    rfl

/-- The first rows, taken together, have these rows. -/
theorem rows_flatten_take (l : List α) (count : ℕ) :
    rows separator ((rows separator l).take count).flatten = (rows separator l).take count := by
  induction hlength : l.length using Nat.strongRecOn generalizing l count with
  | ind length ih =>
    cases count with
    | zero => rfl
    | succ count =>
      by_cases hmem : separator ∈ l
      · obtain ⟨front, back, rfl, hfront⟩ := eq_append_cons_of_mem hmem
        have hlater := ih back.length (by simp [← hlength]; omega) back count rfl
        rw [rows_eq_cons separator hfront, take_succ_cons, flatten_cons,
          List.append_assoc, singleton_append, rows_eq_cons separator hfront, hlater]
      · by_cases hnil : l = []
        · rw [hnil]
          rfl
        · rw [rows_of_notMem separator hnil hmem, take_of_length_le (by simp),
            flatten_singleton, rows_of_notMem separator hnil hmem]

/-! ## From the back -/

/-- The rows of a reversed list, the last one first.  The second argument is what has been read of
the row that is not complete yet. -/
def rowsBack : List α → List α → List (List α)
  | [], row => if row = [] then [] else [row]
  | a :: older, row =>
    if a = separator ∧ row ≠ [] then row :: rowsBack older [a] else rowsBack older (a :: row)

/-- A list with no separator but at its end is one row. -/
theorem rows_singleton {row : List α} (hne : row ≠ []) (hrow : separator ∉ row.dropLast) :
    rows separator row = [row] := by
  have hsplit := dropLast_concat_getLast hne
  by_cases hlast : row.getLast hne = separator
  · rw [← hsplit, hlast, rows_eq_cons separator hrow, rows_nil]
  · refine rows_of_notMem separator hne fun hmem => ?_
    rw [← hsplit] at hmem
    rcases mem_append.mp hmem with hinit | hend
    · exact hrow hinit
    · exact hlast (mem_singleton.mp hend).symm

omit [DecidableEq α] in
theorem notMem_dropLast_cons {a : α} {row : List α} (hrow : separator ∉ row.dropLast)
    (hcut : ¬(a = separator ∧ row ≠ [])) : separator ∉ (a :: row).dropLast := by
  cases row with
  | nil => simp
  | cons b row =>
    intro hmem
    rcases mem_cons.mp hmem with heq | hinit
    · exact hcut ⟨heq.symm, by simp⟩
    · exact hrow hinit

theorem rowsBack_reverse (l row : List α) (hrow : separator ∉ row.dropLast) :
    rowsBack separator l.reverse row = (rows separator (l ++ row)).reverse := by
  induction l using List.reverseRecOn generalizing row with
  | nil =>
    rw [reverse_nil, nil_append, rowsBack]
    split_ifs with hnil
    · rw [hnil, rows_nil, reverse_nil]
    · rw [rows_singleton separator hnil hrow, reverse_singleton]
  | append_singleton l a ih =>
    rw [reverse_append, reverse_singleton, singleton_append, rowsBack,
      List.append_assoc, singleton_append]
    split_ifs with hcut
    · obtain ⟨rfl, hne⟩ := hcut
      rw [ih [a] (by simp), rows_append_separator a l row, reverse_append,
        rows_singleton a hne hrow, reverse_singleton, singleton_append]
    · exact ih (a :: row) (notMem_dropLast_cons separator hrow hcut)

end Codex.Rows
