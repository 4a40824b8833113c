import Mathlib.Data.List.DropRight

/-!
# Text as a sequence of characters

A Rust `String` is modelled by its sequence of `char`s.  The operations of the
standard library that the development needs are defined here with their
documented meaning, over lists, so that the list library carries the proofs.
-/

/-- A Rust string, as the sequence of its `char`s. -/
abbrev Str := List Char

/-- One proof for all uses of membership in a list of strings. -/
instance : LawfulBEq Str := inferInstance

namespace Codex.Text

open List

/-- `char::is_whitespace`: the Unicode property `White_Space`. -/
def isWhitespace (c : Char) : Bool :=
  let n := c.toNat
  (9 ≤ n && n ≤ 13) || n = 0x20 || n = 0x85 || n = 0xA0 || n = 0x1680 ||
    (0x2000 ≤ n && n ≤ 0x200A) || n = 0x2028 || n = 0x2029 || n = 0x202F || n = 0x205F ||
    n = 0x3000

def trimStart (s : Str) : Str := s.dropWhile isWhitespace

def trimEnd (s : Str) : Str := s.rdropWhile isWhitespace

def trim (s : Str) : Str := trimEnd (trimStart s)

/-- `str::strip_prefix`. -/
def stripPrefix : Str → Str → Option Str
  | [], s => some s
  | _ :: _, [] => none
  | p :: ps, c :: cs => if p = c then stripPrefix ps cs else none

/-- `[S]::join`. -/
def join (separator : Str) (parts : List Str) : Str := separator.intercalate parts

/-- A line without the `\r` that may stand before its terminator. -/
def stripCr (line : Str) : Str :=
  if line.getLast? = some '\r' then line.dropLast else line

/-- `str::lines`: a terminator is `\n` or `\r\n`, and the last line needs none. -/
def lines (s : Str) : List Str :=
  (s.splitOn '\n').dropLast.map stripCr ++ ((s.splitOn '\n').getLast?.filter (· ≠ [])).toList

variable {s : Str}

theorem stripPrefix_eq_some_iff {pre rest : Str} :
    stripPrefix pre s = some rest ↔ s = pre ++ rest := by
  induction pre generalizing s with
  | nil => simp [stripPrefix]
  | cons p ps ih =>
    cases s with
    | nil => simp [stripPrefix]
    | cons c cs =>
      simp only [stripPrefix]
      split_ifs with h
      · simp [h, ih]
      · simp [Ne.symm h]

theorem stripPrefix_eq_none_iff {pre : Str} :
    stripPrefix pre s = none ↔ ∀ rest, s ≠ pre ++ rest := by
  rw [Option.eq_none_iff_forall_ne_some]
  exact forall_congr' fun rest => not_congr stripPrefix_eq_some_iff

/-! ## Splitting -/

section

variable {α : Type*} [BEq α] [LawfulBEq α]

/-- The pieces of a split hold what is split, without the separator. -/
theorem piece_spec {separator : α} {s piece : List α} (h : piece ∈ s.splitOn separator) :
    piece.Sublist s ∧ separator ∉ piece := by
  induction s generalizing piece with
  | nil =>
    obtain rfl : piece = [] := by simpa [List.splitOn] using h
    simp
  | cons c rest ih =>
    rw [splitOn_cons_eq_if_modifyHead] at h
    by_cases hc : c = separator
    · subst hc
      rw [if_pos (beq_self_eq_true c)] at h
      rcases mem_cons.mp h with rfl | hrest
      · simp
      · exact ⟨(ih hrest).1.cons c, (ih hrest).2⟩
    · rw [if_neg (by simpa using hc)] at h
      cases hsplit : rest.splitOn separator with
      | nil => simp [hsplit] at h
      | cons first others =>
        rw [hsplit] at h ih
        rcases mem_cons.mp h with rfl | hothers
        · obtain ⟨hsublist, hnone⟩ := ih mem_cons_self
          exact ⟨hsublist.cons_cons c, by simp [Ne.symm hc, hnone]⟩
        · obtain ⟨hsublist, hnone⟩ := ih (mem_cons_of_mem _ hothers)
          exact ⟨hsublist.cons c, hnone⟩

theorem notMem_of_mem_splitOn {separator : α} {s piece : List α}
    (h : piece ∈ s.splitOn separator) : separator ∉ piece := (piece_spec h).2

end

/-! ## Trimming -/

theorem rdropWhile_append {α : Type*} (p : α → Bool) (s t : List α) :
    (s ++ t).rdropWhile p = if t.rdropWhile p = [] then s.rdropWhile p else s ++ t.rdropWhile p := by
  unfold List.rdropWhile
  rw [reverse_append, dropWhile_append]
  by_cases h : t.reverse.dropWhile p = []
  · simp [h]
  · simp [h]

/-- Trimming the end stops in the last part, unless that is blank. -/
theorem trimEnd_append (s t : Str) :
    trimEnd (s ++ t) = if trimEnd t = [] then trimEnd s else s ++ trimEnd t :=
  rdropWhile_append isWhitespace s t

theorem trimEnd_append_of_blank {t : Str} (h : trimEnd t = []) : trimEnd (s ++ t) = trimEnd s := by
  rw [trimEnd_append, if_pos h]

theorem trimEnd_append_of_ne_nil {t : Str} (h : trimEnd t ≠ []) :
    trimEnd (s ++ t) = s ++ trimEnd t := by
  rw [trimEnd_append, if_neg h]

theorem trimStart_append_of_ne_nil {t : Str} (h : trimStart s ≠ []) :
    trimStart (s ++ t) = trimStart s ++ t := by
  rw [trimStart, dropWhile_append, if_neg]
  · rfl
  · rwa [List.isEmpty_iff]

theorem trimStart_eq_nil_iff : trimStart s = [] ↔ ∀ c ∈ s, isWhitespace c = true :=
  dropWhile_eq_nil_iff

theorem trimEnd_eq_nil_iff : trimEnd s = [] ↔ ∀ c ∈ s, isWhitespace c = true :=
  rdropWhile_eq_nil_iff

/-- What is trimmed from the end is whitespace. -/
theorem exists_trimEnd_append (s : Str) : ∃ blank, s = trimEnd s ++ blank ∧ trimEnd blank = [] := by
  refine ⟨s.rtakeWhile isWhitespace, ?_, ?_⟩
  · have hreverse := takeWhile_append_dropWhile (p := isWhitespace) (l := s.reverse)
    have hsplit := congrArg List.reverse hreverse
    rw [reverse_append, reverse_reverse] at hsplit
    exact hsplit.symm
  · exact trimEnd_eq_nil_iff.mpr fun c hc => mem_rtakeWhile_imp hc

theorem trim_eq_nil_iff : trim s = [] ↔ ∀ c ∈ s, isWhitespace c = true := by
  unfold trim
  constructor
  · intro h
    by_contra hblank
    rw [← trimStart_eq_nil_iff] at hblank
    -- the first character that is left is no whitespace
    have hhead := head_dropWhile_not isWhitespace hblank
    have hall := trimEnd_eq_nil_iff.mp h _ (head_mem hblank)
    exact absurd (hall.symm.trans hhead) (by decide)
  · intro h
    rw [trimStart_eq_nil_iff.mpr h]
    rfl

theorem trim_eq_nil_iff_trimEnd : trim s = [] ↔ trimEnd s = [] := by
  rw [trim_eq_nil_iff, trimEnd_eq_nil_iff]

theorem trim_eq_nil_iff_trimStart : trim s = [] ↔ trimStart s = [] := by
  rw [trim_eq_nil_iff, trimStart_eq_nil_iff]

theorem trim_append_of_blank {t : Str} (h : trimEnd t = []) : trim (s ++ t) = trim s := by
  by_cases hs : trimStart s = []
  · have hall : ∀ c ∈ s ++ t, isWhitespace c = true := by
      intro c hc
      rcases mem_append.mp hc with hc | hc
      · exact trimStart_eq_nil_iff.mp hs c hc
      · exact trimEnd_eq_nil_iff.mp h c hc
    rw [trim_eq_nil_iff.mpr hall, trim_eq_nil_iff_trimStart.mpr hs]
  · rw [trim, trimStart_append_of_ne_nil hs, trimEnd_append_of_blank h, trim]

theorem trim_trimEnd (s : Str) : trim (trimEnd s) = trim s := by
  obtain ⟨blank, hs, hblank⟩ := exists_trimEnd_append s
  calc trim (trimEnd s) = trim (trimEnd s ++ blank) := (trim_append_of_blank hblank).symm
    _ = trim s := by rw [← hs]

theorem trim_trimStart (s : Str) : trim (trimStart s) = trim s := by
  unfold trim trimStart
  rw [dropWhile_idempotent]

theorem trim_trim (s : Str) : trim (trim s) = trim s := by
  calc trim (trim s) = trim (trimStart s) := trim_trimEnd (trimStart s)
    _ = trim s := trim_trimStart s

theorem mem_of_mem_trim {c : Char} (h : c ∈ trim s) : c ∈ s :=
  (dropWhile_suffix _).subset ((List.rdropWhile_prefix _ _).subset h)

/-- Trimming takes away whitespace only. -/
theorem mem_trim {c : Char} (h : c ∈ s) (hc : isWhitespace c = false) : c ∈ trim s := by
  have hstart : c ∈ trimStart s := by
    rw [← takeWhile_append_dropWhile (p := isWhitespace) (l := s)] at h
    rcases mem_append.mp h with hblank | hrest
    · have hspace := all_eq_true.mp (all_takeWhile (l := s)) c hblank
      simp [hc] at hspace
    · exact hrest
  obtain ⟨blank, hsplit, hblank⟩ := exists_trimEnd_append (trimStart s)
  rw [hsplit] at hstart
  rcases mem_append.mp hstart with hkept | hcut
  · exact hkept
  · have hspace := trimEnd_eq_nil_iff.mp hblank c hcut
    simp [hc] at hspace

theorem trim_eq_self (h : ∀ c ∈ s, isWhitespace c = false) : trim s = s := by
  have hstart : trimStart s = s := by
    rw [trimStart, dropWhile_eq_self_iff]
    intro hpos
    simp [h _ (getElem_mem hpos)]
  have hend : trimEnd s = s := by
    rw [trimEnd, rdropWhile_eq_self_iff]
    intro hne
    simp [h _ (getLast_mem hne)]
  rw [trim, hstart, hend]

/-! ## Trimming a text of several lines -/

theorem intercalate_cons_eq {α : Type*} (separator : α) (piece : List α) (pieces : List (List α)) :
    [separator].intercalate (piece :: pieces) = piece ++ (pieces.map (separator :: ·)).flatten := by
  induction pieces generalizing piece with
  | nil => simp
  | cons next rest ih =>
    rw [intercalate_cons_cons, ih]
    simp

theorem mem_of_mem_intercalate {α : Type*} {separator a : α} {pieces : List (List α)}
    (h : a ∈ [separator].intercalate pieces) : a = separator ∨ ∃ piece ∈ pieces, a ∈ piece := by
  cases pieces with
  | nil => cases h
  | cons piece pieces =>
    rw [intercalate_cons_eq, mem_append, mem_flatten] at h
    rcases h with hfirst | ⟨_, hlater, hmem⟩
    · exact .inr ⟨piece, mem_cons_self, hfirst⟩
    · obtain ⟨other, hother, rfl⟩ := mem_map.mp hlater
      exact (mem_cons.mp hmem).imp_right fun hmem => ⟨other, .tail _ hother, hmem⟩

/-- A joined text around one of its pieces. -/
theorem intercalate_append_cons (separator : Char) (before : List Str) (piece : Str)
    (after : List Str) :
    [separator].intercalate (before ++ piece :: after) =
      (before.map (· ++ [separator])).flatten ++ (piece ++ (after.map (separator :: ·)).flatten) := by
  induction before with
  | nil => exact intercalate_cons_eq separator piece after
  | cons first rest ih =>
    cases rest with
    | nil =>
      rw [nil_append] at ih
      rw [singleton_append, intercalate_cons_cons, ih]
      simp
    | cons second others =>
      rw [cons_append, cons_append, intercalate_cons_cons, ← cons_append, ih]
      simp

/-- Trimming a text changes its first line and its last that is not blank, and drops the
lines after that. -/
theorem splitOn_trim {first last : Str} {middle blanks : List Str}
    (hsplit : s.splitOn '\n' = first :: middle ++ last :: blanks) (hfirst : trim first ≠ [])
    (hlast : trim last ≠ []) (hblanks : ∀ blank ∈ blanks, trim blank = []) :
    (trim s).splitOn '\n' = trimStart first :: middle ++ [trimEnd last] := by
  have hs : s = [('\n' : Char)].intercalate (first :: middle ++ last :: blanks) := by
    rw [← hsplit, intercalate_splitOn]
  have hstart : trimStart first ≠ [] := fun h => hfirst (trim_eq_nil_iff_trimStart.mpr h)
  have hend : trimEnd last ≠ [] := fun h => hlast (trim_eq_nil_iff_trimEnd.mpr h)
  have htail : trimEnd (blanks.map ('\n' :: ·)).flatten = [] := by
    apply trimEnd_eq_nil_iff.mpr
    intro c hc
    obtain ⟨line, hline, hmem⟩ := mem_flatten.mp hc
    obtain ⟨blank, hblank, rfl⟩ := mem_map.mp hline
    rcases mem_cons.mp hmem with rfl | hmem
    · rfl
    · exact trim_eq_nil_iff.mp (hblanks blank hblank) c hmem
  have htrim : trim s = [('\n' : Char)].intercalate (trimStart first :: middle ++ [trimEnd last]) := by
    rw [hs, intercalate_append_cons, intercalate_append_cons, trim]
    simp only [map_cons, flatten_cons, List.append_assoc, map_nil, flatten_nil, append_nil]
    rw [trimStart_append_of_ne_nil hstart]
    simp only [← List.append_assoc]
    rw [trimEnd_append_of_blank htail, trimEnd_append_of_ne_nil hend]
  rw [htrim]
  have hpieces : ∀ piece ∈ first :: middle ++ last :: blanks, '\n' ∉ piece := by
    intro piece hpiece
    rw [← hsplit] at hpiece
    exact notMem_of_mem_splitOn hpiece
  apply splitOn_intercalate '\n' _ (by simp)
  intro piece hpiece
  rcases mem_append.mp hpiece with hpiece | hpiece
  · rcases mem_cons.mp hpiece with rfl | hpiece
    · intro hmem
      exact hpieces first (by simp) ((dropWhile_suffix _).subset hmem)
    · exact hpieces piece (by simp [hpiece])
  · obtain rfl := mem_singleton.mp hpiece
    intro hmem
    exact hpieces last (by simp) ((List.rdropWhile_prefix _ _).subset hmem)

/-! ## Carriage returns -/

theorem notMem_stripCr {c : Char} {line : Str} (h : c ∉ line) : c ∉ stripCr line := by
  unfold stripCr
  split_ifs
  · exact fun hmem => h ((List.dropLast_prefix line).subset hmem)
  · exact h

/-- Either nothing is stripped or one carriage return is. -/
theorem stripCr_cases (line : Str) :
    (stripCr line = line ∧ line.getLast? ≠ some '\r') ∨
      (line = stripCr line ++ ['\r'] ∧ line.getLast? = some '\r') := by
  unfold stripCr
  by_cases h : line.getLast? = some '\r'
  · rw [if_pos h]
    exact .inr ⟨(dropLast_append_getLast? '\r' h).symm, h⟩
  · rw [if_neg h]
    exact .inl ⟨rfl, h⟩

theorem trimEnd_stripCr (line : Str) : trimEnd (stripCr line) = trimEnd line := by
  rcases stripCr_cases line with ⟨h, -⟩ | ⟨h, -⟩
  · rw [h]
  · calc trimEnd (stripCr line) = trimEnd (stripCr line ++ ['\r']) :=
          (trimEnd_append_of_blank (by decide)).symm
      _ = trimEnd line := by rw [← h]

theorem trim_stripCr (line : Str) : trim (stripCr line) = trim line := by
  rw [← trim_trimEnd, trimEnd_stripCr, trim_trimEnd]

end Codex.Text
