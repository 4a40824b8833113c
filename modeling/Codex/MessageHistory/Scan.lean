import Codex.Lib.Except
import Codex.MessageHistory.Batch

/-!
# Both scans return the same batch

The rows of the file, each with its offset and position (`located`), are what both scans select from.
The batch that ends at an offset is the newest of the rows up to there, as many as fit, but at least
one (`newestBatch`).  The scan from the beginning keeps it as the end of what it has read; the scan
backward takes its rows one by one, until the next one does not fit.
-/

namespace Codex.MessageHistory

open Rows Budget List

/-! ## The rows of a file -/

structure Row where
  offset : ℕ
  position : ℕ
  bytes : Bytes

namespace Row

def length (row : Row) : ℕ := row.bytes.length

/-- What the scans keep of the bytes of a row. -/
def buffered (bytes : Bytes) : Option Bytes := if bytes.length ≤ maxBatchBytes then some bytes else none

def raw (row : Row) : RawHistoryBatchEntry :=
  ⟨row.offset, row.position, row.length, buffered row.bytes⟩

/-- The row stands where it says. -/
def In (contents : Bytes) (row : Row) : Prop :=
  ∃ front back, contents = front ++ row.bytes ++ back ∧ front.length = row.position

end Row

open Row

theorem buffer_buffered (front more : Bytes) :
    buffer (buffered front) (front.length + more.length) more = buffered (front ++ more) := by
  rw [buffered, buffered, length_append]
  by_cases hall : front.length + more.length ≤ maxBatchBytes
  · rw [if_pos (by omega), buffer]
  · rw [if_neg hall]
    split_ifs
    · rw [buffer, if_neg hall]
    · rfl

/-- The rows with their offsets and positions. -/
def located (offset position : ℕ) : List Bytes → List Row
  | [] => []
  | bytes :: later =>
    ⟨offset, position, bytes⟩ :: located (offset + 1) (position + bytes.length) later

theorem length_located (offset position : ℕ) (rows : List Bytes) :
    (located offset position rows).length = rows.length := by
  induction rows generalizing offset position with
  | nil => rfl
  | cons bytes rows ih => rw [located, length_cons, ih, length_cons]

theorem located_append (offset position : ℕ) (rows more : List Bytes) :
    located offset position (rows ++ more) = located offset position rows ++
      located (offset + rows.length) (position + rows.flatten.length) more := by
  induction rows generalizing offset position with
  | nil => rfl
  | cons first rows ih =>
    rw [cons_append, located, ih, flatten_cons, length_append, length_cons]
    congr 3
    · omega
    · omega

theorem exists_offset_of_mem_located {offset position : ℕ} {rows : List Bytes} {row : Row}
    (h : row ∈ located offset position rows) :
    ∃ index, row.offset = offset + index ∧ rows[index]? = some row.bytes := by
  induction rows generalizing offset position with
  | nil => cases h
  | cons bytes rows ih =>
    rcases mem_cons.mp h with rfl | hlater
    · exact ⟨0, rfl, rfl⟩
    · obtain ⟨index, hoffset, hget⟩ := ih hlater
      exact ⟨index + 1, by omega, hget⟩

theorem in_of_mem_located {offset : ℕ} {front : Bytes} {rows : List Bytes} {row : Row}
    (h : row ∈ located offset front.length rows) : row.In (front ++ rows.flatten) := by
  induction rows generalizing offset front with
  | nil => cases h
  | cons bytes rows ih =>
    rcases mem_cons.mp h with rfl | hlater
    · exact ⟨front, rows.flatten, by simp, rfl⟩
    · rw [← length_append] at hlater
      have hin := ih hlater
      rwa [List.append_assoc, ← flatten_cons] at hin

/-! ## The batch at the end of some rows -/

/-- The rows of the batch, the newest first, of rows that are given in this order. -/
def newestBatch : List Row → List Row
  | [] => []
  | row :: older =>
    if maxBatchBytes < row.length then [row]
    else takeWithin Row.length maxBatchRows maxBatchBytes (row :: older)

theorem newestBatch_isPrefix (rows : List Row) : newestBatch rows <+: rows := by
  cases rows with
  | nil => exact prefix_rfl
  | cons row older =>
    rw [newestBatch]
    split_ifs
    · exact ⟨older, rfl⟩
    · exact takeWithin_isPrefix _ _ _ _

theorem newestBatch_ne_nil {rows : List Row} (h : rows ≠ []) : newestBatch rows ≠ [] := by
  cases rows with
  | nil => exact absurd rfl h
  | cons row older =>
    rw [newestBatch]
    split_ifs with hlarge
    · simp
    · rw [maxBatchRows, takeWithin, if_pos (Nat.le_of_not_lt hlarge)]
      simp

/-- A batch is within the limits, or it is a single row. -/
theorem fits_newestBatch (rows : List Row) :
    Fits Row.length maxBatchRows maxBatchBytes (newestBatch rows) ∨
      ∃ row, newestBatch rows = [row] ∧ maxBatchBytes < row.length := by
  cases rows with
  | nil => exact .inl ⟨Nat.zero_le _, Nat.zero_le _⟩
  | cons row older =>
    rw [newestBatch]
    split_ifs with hlarge
    · exact .inr ⟨row, rfl, hlarge⟩
    · exact .inl (fits_takeWithin _ _ _ _)

/-- A smaller budget takes from the batch what it takes from all rows. -/
theorem takeWithin_newestBatch {count bytes : ℕ} (hcount : count ≤ maxBatchRows)
    (hbytes : bytes ≤ maxBatchBytes) (rows : List Row) :
    takeWithin Row.length count bytes (newestBatch rows) =
      takeWithin Row.length count bytes rows := by
  cases rows with
  | nil => rfl
  | cons row older =>
    rw [newestBatch]
    split_ifs with hlarge
    · cases count with
      | zero => rfl
      | succ count => rw [takeWithin, takeWithin, if_neg (by omega), if_neg (by omega)]
    · exact takeWithin_takeWithin _ hcount hbytes _

/-! ## The scan from the beginning -/

theorem trimSuffix_eq (rows : List Row) :
    trimSuffix (rows.map Row.raw) (total Row.length rows) =
      (((takeWithin Row.length maxBatchRows maxBatchBytes rows.reverse).reverse).map Row.raw,
        total Row.length (takeWithin Row.length maxBatchRows maxBatchBytes rows.reverse)) := by
  induction rows with
  | nil => rfl
  | cons row rows ih =>
    have hreverse : total Row.length (rows.reverse ++ [row]) = total Row.length (row :: rows) := by
      rw [total_append, total_reverse, total_cons, total_cons, total_nil]
      omega
    rw [map_cons, trimSuffix, reverse_cons]
    split_ifs with hover
    · have hrest : total Row.length (row :: rows) - row.raw.byteLen = total Row.length rows := by
        exact Nat.add_sub_cancel_left ..
      rw [hrest, ih, takeWithin_concat]
      rintro ⟨hlength, htotal⟩
      rw [length_append, length_reverse, length_singleton] at hlength
      rw [length_cons, length_map] at hover
      omega
    · rw [length_cons, length_map] at hover
      have hfits : Fits Row.length maxBatchRows maxBatchBytes (rows.reverse ++ [row]) := by
        refine ⟨?_, ?_⟩
        · rw [length_append, length_reverse, length_singleton]
          omega
        · rw [hreverse]
          omega
      rw [takeWithin_eq_self _ hfits, hreverse]
      simp

theorem retainRow_eq (row : Row) (older : List Row) :
    retainRow ((newestBatch older).reverse.map Row.raw) (total Row.length (newestBatch older))
        row.raw =
      ((newestBatch (row :: older)).reverse.map Row.raw,
        total Row.length (newestBatch (row :: older))) := by
  rw [newestBatch]
  change (if maxBatchBytes < row.length then _ else _) = _
  split_ifs with hlarge
  · rfl
  · have hmap : (newestBatch older).reverse.map Row.raw ++ [row.raw] =
        ((newestBatch older).reverse ++ [row]).map Row.raw := by simp
    have htotal : total Row.length (newestBatch older) + row.raw.byteLen =
        total Row.length ((newestBatch older).reverse ++ [row]) := by
      rw [total_append, total_reverse]
      rfl
    have hsame : takeWithin Row.length maxBatchRows maxBatchBytes (row :: newestBatch older) =
        takeWithin Row.length maxBatchRows maxBatchBytes (row :: older) := by
      rw [maxBatchRows, takeWithin, takeWithin, takeWithin_newestBatch (by decide) (Nat.sub_le _ _)]
    rw [hmap, htotal, trimSuffix_eq, reverse_append, reverse_reverse,
      reverse_singleton, singleton_append, hsame]

/-- The next row of what the reader has, of which the beginning is read already. -/
theorem readRow_eq {front : Bytes} (hfront : newline ∉ front) (reader : List Bytes)
    (hreader : ∀ piece ∈ reader, piece ≠ []) :
    match rows newline (front ++ reader.flatten) with
    | [] => readRow front.length (buffered front) reader = none
    | row :: later => ∃ rest, readRow front.length (buffered front) reader =
          some ⟨row.length, buffered row, rest⟩ ∧
        rows newline rest.flatten = later ∧ ∀ piece ∈ rest, piece ≠ [] := by
  induction reader generalizing front with
  | nil =>
    rw [flatten_nil, append_nil, readRow]
    by_cases hnil : front = []
    · rw [hnil, rows_nil]
      rfl
    · have hlength : front.length ≠ 0 := fun h => hnil (length_eq_zero_iff.mp h)
      rw [rows_of_notMem newline hnil hfront, if_neg hlength]
      exact ⟨[], rfl, rfl, by simp⟩
  | cons piece later ih =>
    have hlater : ∀ other ∈ later, other ≠ [] := fun other hother =>
      hreader other (mem_cons_of_mem _ hother)
    rw [flatten_cons, readRow]
    cases hfind : piece.findIdx? (· = newline) with
    | none =>
      have hnone : newline ∉ piece := by
        intro hmem
        have hall := findIdx?_eq_none_iff.mp hfind newline hmem
        simp at hall
      have hboth : newline ∉ front ++ piece := by
        rw [mem_append]
        exact not_or.mpr ⟨hfront, hnone⟩
      have hrest := ih hboth hlater
      rw [buffer_buffered, ← List.append_assoc, ← length_append]
      exact hrest
    | some index =>
      obtain ⟨hindex, hbyte, hbefore⟩ := findIdx?_eq_some_iff_getElem.mp hfind
      have hget : piece[index] = newline := by simpa using hbyte
      have htake : piece.take (index + 1) = piece.take index ++ [newline] := by
        rw [take_succ_eq_append_getElem hindex, hget]
      have hnone : newline ∉ front ++ piece.take index := by
        rw [mem_append]
        refine not_or.mpr ⟨hfront, fun hmem => ?_⟩
        obtain ⟨k, hk, hget⟩ := mem_take_iff_getElem.mp hmem
        have hearlier := hbefore k (by omega)
        simp [hget] at hearlier
      have hrows : rows newline (front ++ (piece ++ later.flatten)) =
          (front ++ piece.take (index + 1)) ::
            rows newline (piece.drop (index + 1) ++ later.flatten) := by
        have hsplit : front ++ (piece ++ later.flatten) = (front ++ piece.take index) ++
            newline :: (piece.drop (index + 1) ++ later.flatten) := by
          nth_rewrite 1 [← take_append_drop (index + 1) piece]
          rw [htake]
          simp
        rw [hsplit, rows_eq_cons newline hnone, htake, List.append_assoc]
      have hlength : (piece.take (index + 1)).length = index + 1 :=
        length_take_of_le hindex
      rw [hrows]
      dsimp only
      have hbuffer := buffer_buffered front (piece.take (index + 1))
      rw [hlength] at hbuffer
      refine ⟨if piece.drop (index + 1) = [] then later else piece.drop (index + 1) :: later,
        ?_, ?_, ?_⟩
      · rw [hbuffer, length_append, hlength]
      · split_ifs with hend
        · rw [hend, nil_append]
        · rw [flatten_cons]
      · split_ifs with hend
        · exact hlater
        · exact forall_mem_cons.mpr ⟨hend, hlater⟩

/-- The scan keeps the end of the rows that it has read. -/
theorem scanRows_eq (count offset position : ℕ) (reader : List Bytes)
    (hreader : ∀ piece ∈ reader, piece ≠ []) (older : List Row) :
    scanRows count offset position reader ((newestBatch older).reverse.map Row.raw)
        (total Row.length (newestBatch older)) =
      (newestBatch ((located offset position
        ((rows newline reader.flatten).take count)).reverse ++ older)).reverse.map Row.raw := by
  induction count generalizing offset position reader older with
  | zero => rfl
  | succ count ih =>
    have hread := @readRow_eq [] (by simp) reader hreader
    rw [nil_append] at hread
    rw [scanRows]
    cases hrows : rows newline reader.flatten with
    | nil =>
      rw [hrows] at hread
      rw [show readRow 0 (some []) reader = none from hread]
      rfl
    | cons row later =>
      rw [hrows] at hread
      obtain ⟨rest, hrow, hlater, hrest⟩ := hread
      rw [show readRow 0 (some []) reader = _ from hrow]
      dsimp only
      have hretain := retainRow_eq ⟨offset, position, row⟩ older
      rw [show retainRow _ _ ⟨offset, position, row.length, buffered row⟩ = _ from hretain]
      rw [ih _ _ rest hrest, hlater, take_succ_cons, located, reverse_cons,
        List.append_assoc, singleton_append]

/-! ## The scan backward -/

/-- The blocks are read as if they were one. -/
theorem block_append (readStart : ℕ) (scan : BackwardScan) (newer older : Bytes) :
    scan.block readStart (newer ++ older) =
      match scan.block (readStart + older.length) newer with
      | (scan, false) => (scan, false)
      | (scan, true) => scan.block readStart older := by
  induction newer generalizing scan with
  | nil => rfl
  | cons byte newer ih =>
    have hposition : readStart + (newer ++ older).length =
        readStart + older.length + newer.length := by
      rw [length_append]
      omega
    rw [cons_append, BackwardScan.block, BackwardScan.block, hposition]
    split
    · rfl
    · exact ih _

theorem blocks_eq {blockSize : ℕ} (hsize : 0 < blockSize) (contents : Bytes) (scan : BackwardScan)
    (readEnd : ℕ) (hend : readEnd ≤ contents.length) :
    scan.blocks blockSize contents readEnd =
      .ok (scan.block 0 (contents.take readEnd).reverse) := by
  induction readEnd using Nat.strongRecOn generalizing scan with
  | ind readEnd ih =>
    rw [BackwardScan.blocks]
    split_ifs with hstop
    · obtain rfl : readEnd = 0 := by omega
      rfl
    · have hread : readExact contents (readEnd - blockSize) (readEnd - (readEnd - blockSize)) =
          .ok ((contents.take readEnd).drop (readEnd - blockSize)) := by
        rw [readExact, if_pos (by omega), drop_take]
      have hsplit : (contents.take readEnd).reverse =
          ((contents.take readEnd).drop (readEnd - blockSize)).reverse ++
            (contents.take (readEnd - blockSize)).reverse := by
        rw [← reverse_append]
        congr 1
        nth_rewrite 1 [← take_append_drop (readEnd - blockSize) (contents.take readEnd)]
        rw [take_take, Nat.min_eq_left (Nat.sub_le _ _)]
      have hlength : (contents.take (readEnd - blockSize)).reverse.length =
          readEnd - blockSize := by
        rw [length_reverse, length_take_of_le (by omega)]
      dsimp only
      rw [hread, hsplit, block_append, hlength, Nat.zero_add]
      dsimp only
      cases scan.block (readEnd - blockSize)
        ((contents.take readEnd).drop (readEnd - blockSize)).reverse with
      | mk scan goesOn =>
        cases goesOn with
        | false => rfl
        | true => exact ih (readEnd - blockSize) (by omega) scan (by omega)

/-- The rows, from the newest, that end at a position. -/
def locatedBack : ℕ → ℕ → List Bytes → List Row
  | _, _, [] => []
  | offset, stop, bytes :: older =>
    ⟨offset, stop - bytes.length, bytes⟩ :: locatedBack (offset - 1) (stop - bytes.length) older

/-- The rows that are taken one by one. -/
def takeNewest (entries : List RawHistoryBatchEntry) (entriesBytes : ℕ) :
    List Row → List RawHistoryBatchEntry
  | [] => entries
  | row :: older =>
    match retainNewestRow entries entriesBytes row.raw with
    | ((entries, _), false) => entries
    | ((entries, entriesBytes), true) => takeNewest entries entriesBytes older

/-- The rows of a scan that has ended. -/
def BackwardScan.result : BackwardScan × Bool → List RawHistoryBatchEntry
  | (scan, false) => scan.entries
  | (scan, true) => scan.finish

theorem map_reverse_buffered (row : Bytes) :
    ((buffered row).map List.reverse).map List.reverse = buffered row := by
  rw [Option.map_map, reverse_involutive.comp_self, Option.map_id]
  rfl

theorem buffer_reverse_buffered (row : Bytes) (byte : UInt8) :
    buffer ((buffered row).map List.reverse) (row.length + 1) [byte] =
      (buffered (byte :: row)).map List.reverse := by
  rw [buffered, buffered, length_cons]
  by_cases hall : row.length + 1 ≤ maxBatchBytes
  · rw [if_pos (by omega), if_pos hall, Option.map_some, Option.map_some, buffer, if_pos hall,
      reverse_cons]
  · rw [if_neg hall, Option.map_none]
    split_ifs
    · rw [Option.map_some, buffer, if_neg hall]
    · rfl

/-- The scan meets the rows from the back; `row` is what it has read of one. -/
theorem result_block (entries : List RawHistoryBatchEntry) (entriesBytes offset : ℕ)
    (older row : Bytes) (hrow : newline ∉ row.dropLast)
    (hoffset : (rowsBack newline older.reverse row).length ≤ offset + 1) :
    BackwardScan.result (BackwardScan.block 0 ⟨entries, entriesBytes,
        (buffered row).map List.reverse, row.length, offset⟩ older.reverse) =
      takeNewest entries entriesBytes (locatedBack offset (older.length + row.length)
        (rowsBack newline older.reverse row)) := by
  induction older using List.reverseRecOn generalizing entries entriesBytes offset row with
  | nil =>
    rw [reverse_nil, BackwardScan.block, rowsBack, BackwardScan.result, BackwardScan.finish]
    by_cases hnil : row = []
    · rw [if_neg (by simp [hnil]), if_pos hnil]
      rfl
    · rw [if_pos (length_pos_of_ne_nil hnil), if_neg hnil, locatedBack, length_nil,
        Nat.zero_add, Nat.sub_self, map_reverse_buffered]
      rw [takeNewest]
      dsimp only [raw, Row.length]
      split
      · rename_i hretain
        rw [hretain]
      · rename_i hretain
        rw [hretain]
        rfl
  | append_singleton older byte ih =>
    rw [reverse_append, reverse_singleton, singleton_append] at hoffset ⊢
    rw [BackwardScan.block, BackwardScan.byte, rowsBack]
    rw [rowsBack] at hoffset
    by_cases hcut : byte = newline ∧ row ≠ []
    · obtain ⟨rfl, hne⟩ := hcut
      rw [if_pos ⟨rfl, hne⟩, length_cons] at hoffset
      rw [if_pos ⟨rfl, length_pos_of_ne_nil hne⟩, if_pos ⟨rfl, hne⟩, locatedBack, takeNewest,
        map_reverse_buffered]
      -- there is a row before this one, so its offset is not the first
      have hmore : 0 < (rowsBack newline older.reverse [newline]).length := by
        rw [rowsBack_reverse newline older [newline] (by simp), length_reverse]
        exact length_pos_of_ne_nil (rows_ne_nil newline (by simp))
      have hstop : (older ++ [newline]).length + row.length - row.length = older.length + 1 := by
        rw [length_append, length_singleton, Nat.add_sub_cancel]
      rw [hstop, Nat.zero_add, length_reverse]
      have hraw : ⟨offset, older.length + 1, row.length, buffered row⟩ =
        raw ⟨offset, older.length + 1, row⟩ := rfl
      rw [hraw]
      cases retainNewestRow entries entriesBytes (raw ⟨offset, older.length + 1, row⟩) with
      | mk kept goesOn =>
        obtain ⟨entries', entriesBytes'⟩ := kept
        cases goesOn with
        | false => rfl
        | true =>
          dsimp only
          rw [if_neg (by omega)]
          exact ih entries' entriesBytes' (offset - 1) [newline] (by simp) (by omega)
    · have hbyte : ¬(byte = newline ∧ 0 < row.length) := fun h =>
        hcut ⟨h.1, length_pos_iff.mp h.2⟩
      rw [if_neg hcut] at hoffset
      rw [if_neg hbyte, if_neg hcut]
      have hstep := ih entries entriesBytes offset (byte :: row)
        (notMem_dropLast_cons newline hrow hcut) hoffset
      rw [length_cons] at hstep
      rw [buffer_reverse_buffered, hstep, length_append, length_singleton]
      congr 2
      omega

theorem byteLen_raw (row : Row) : row.raw.byteLen = row.length := rfl

theorem takeNewest_of_fits {kept : List Row} (hne : kept ≠ [])
    (hfits : Fits Row.length maxBatchRows maxBatchBytes kept) (older : List Row) :
    takeNewest (kept.map Row.raw) (total Row.length kept) older =
      (kept ++ takeWithin Row.length (maxBatchRows - kept.length)
        (maxBatchBytes - total Row.length kept) older).map Row.raw := by
  induction older generalizing kept with
  | nil => rw [takeNewest, takeWithin_nil, append_nil]
  | cons row older ih =>
    obtain ⟨hlength, htotal⟩ := hfits
    have hempty : ¬(kept.map Row.raw = [] ∧ maxBatchBytes < row.raw.byteLen) := fun h =>
      hne (map_eq_nil_iff.mp h.1)
    rw [takeNewest, retainNewestRow, if_neg hempty, length_map, byteLen_raw]
    split_ifs with hfull
    · dsimp only
      rcases hfull with hrows | hbytes
      · rw [hrows, Nat.sub_self, takeWithin, append_nil]
      · rw [takeWithin_cons_of_lt _ (by omega), append_nil]
    · dsimp only
      have hnext : Fits Row.length maxBatchRows maxBatchBytes (kept ++ [row]) := by
        rw [Fits, length_append, length_singleton, total_append, total_cons, total_nil]
        omega
      have hkept := ih (by simp) hnext
      rw [map_append, total_append, total_cons, total_nil, Nat.add_zero,
        length_append, length_singleton] at hkept
      rw [takeWithin_cons _ (by omega) (by omega)]
      refine hkept.trans ?_
      rw [List.append_assoc, singleton_append, Nat.sub_sub, Nat.sub_sub]

/-- The rows that are taken one by one are the batch. -/
theorem takeNewest_eq (rows : List Row) :
    takeNewest [] 0 rows = (newestBatch rows).map Row.raw := by
  cases rows with
  | nil => rfl
  | cons row older =>
    rw [newestBatch, takeNewest, retainNewestRow, byteLen_raw]
    by_cases hlarge : maxBatchBytes < row.length
    · rw [if_pos ⟨rfl, hlarge⟩, if_pos hlarge]
      rfl
    · have hroom : ¬(([] : List RawHistoryBatchEntry).length = maxBatchRows ∨
          maxBatchBytes < 0 + row.length) := by
        rw [maxBatchRows, length_nil]
        omega
      rw [if_neg fun h => hlarge h.2, if_neg hlarge, if_neg hroom]
      have hone : Fits Row.length maxBatchRows maxBatchBytes [row] := by
        refine ⟨by rw [maxBatchRows, length_singleton]; omega, ?_⟩
        rw [total_cons, total_nil]
        omega
      have htaken := takeNewest_of_fits (by simp) hone older
      rw [takeWithin_cons _ (by decide) (Nat.le_of_not_lt hlarge), Nat.zero_add]
      exact htaken

/-- Rows are located from the back as from the front. -/
theorem locatedBack_reverse (position : ℕ) (rows : List Bytes) :
    locatedBack (rows.length - 1) (position + rows.flatten.length) rows.reverse =
      (located 0 position rows).reverse := by
  induction rows using List.reverseRecOn with
  | nil => rfl
  | append_singleton rows bytes ih =>
    rw [located_append, reverse_append, reverse_append,
      reverse_singleton, singleton_append, locatedBack, ← ih,
      flatten_append, flatten_singleton, length_append, length_append,
      length_singleton]
    congr 2
    · omega
    · omega
    · omega

end Codex.MessageHistory
