import Codex.MessageHistory.Scan

/-!
# Following the cursors

From any offset, the batches of a cursor and of those that follow it are all rows from there back to
the first, each once.  A cursor stands right behind the rows that are left (`Valid`), so that the scan
from its byte position and the scan from the beginning of the file return the same batch.

`cursors_cover_history` puts together: either scan returns the newest rows that fit
(`scanBatchForward_eq`, `scanBatchBackward_eq`), the next cursor is valid again
(`valid_nextOlderCursor`), and the batches together are all rows (`olderBatches_eq`, by induction
with the offset as a bound on the number of cursors).
-/

namespace Codex.MessageHistory

open Rows Budget List

variable {ε τ : Type} (parse : Bytes → Option ε) (buffering : Buffering)

/-! ## One batch -/

/-- The rows up to an offset, the newest first. -/
def rowsUpTo (contents : Bytes) (endOffset : ℕ) : List Row :=
  (located 0 0 ((rows newline contents).take (endOffset + 1))).reverse

def parsed (row : Row) : HistoryBatchEntry ε := ⟨row.offset, tryParseEntry parse row.bytes⟩

def batchOf (revision : HistoryFileRevision τ) (batch : List Row) : HistoryBatch ε τ :=
  ⟨batch.map (parsed parse), nextCursor revision (batch.map Row.raw)⟩

variable {contents : Bytes} {endOffset : ℕ}

theorem in_of_mem_rowsUpTo {row : Row} (h : row ∈ rowsUpTo contents endOffset) :
    row.In contents := by
  obtain ⟨front, back, hcontents, hposition⟩ :=
    @in_of_mem_located 0 [] _ row (mem_reverse.mp h)
  refine ⟨front, back ++ ((rows newline contents).drop (endOffset + 1)).flatten, ?_, hposition⟩
  rw [nil_append] at hcontents
  rw [← List.append_assoc, ← hcontents, ← flatten_append, take_append_drop, flatten_rows]

theorem materialize_raw {row : Row} (h : row.In contents) :
    materialize contents row.raw = .ok { row.raw with bytes := some row.bytes } := by
  obtain ⟨front, back, hcontents, hposition⟩ := h
  have hread : readExact contents row.position row.length = .ok row.bytes := by
    rw [readExact, if_pos, ← hposition, hcontents, List.append_assoc, drop_left, take_left']
    · rfl
    · rw [hcontents, length_append, length_append, Row.length]
      omega
  rw [materialize]
  cases hbytes : row.raw.bytes with
  | some bytes =>
    have hsame : bytes = row.bytes := by
      rw [Row.raw, Row.buffered] at hbytes
      split_ifs at hbytes
      cases hbytes
      rfl
    dsimp only
    rw [← hsame, ← hbytes]
  | none =>
    rw [show readExact contents row.raw.bytePosition row.raw.byteLen = _ from hread]

theorem finishMaterializedBatch_eq {batch : List Row} (h : ∀ row ∈ batch, row.In contents)
    (revision : HistoryFileRevision τ) :
    finishMaterializedBatch parse contents (batch.map Row.raw) revision =
      .ok (batchOf parse revision batch) := by
  have hmaterialize : (batch.map Row.raw).mapM (materialize contents) =
      .ok (batch.map fun row => { row.raw with bytes := some row.bytes }) := by
    rw [mapM_map]
    exact mapM_eq_ok fun row hrow => materialize_raw (h row hrow)
  have hparse : (batch.map fun row => { row.raw with bytes := some row.bytes }).mapM
      (parseRaw parse) = .ok (batch.map (parsed parse)) := by
    rw [mapM_map]
    exact mapM_eq_ok fun row _ => rfl
  rw [finishMaterializedBatch, hmaterialize]
  change finishBatch parse _ revision = _
  rw [finishBatch, hparse, batchOf, nextCursor, nextCursor, getLast?_map, getLast?_map]
  cases batch.getLast? <;> rfl

theorem scanBatchForward_eq (contents : Bytes) (endOffset : ℕ) (revision : HistoryFileRevision τ) :
    scanBatchForward parse buffering contents endOffset revision =
      .ok (batchOf parse revision (newestBatch (rowsUpTo contents endOffset))) := by
  have hscan := scanRows_eq (endOffset + 1) 0 0 (buffering.split contents)
    (buffering.ne_nil contents) []
  rw [buffering.flatten_split, append_nil] at hscan
  rw [scanBatchForward, show scanRows (endOffset + 1) 0 0 (buffering.split contents) [] 0 = _ from
    hscan, ← map_reverse, reverse_reverse]
  refine finishMaterializedBatch_eq parse (fun row hrow => ?_) revision
  exact in_of_mem_rowsUpTo ((newestBatch_isPrefix _).subset hrow)

/-- The position behind the first rows. -/
def positionAfter (contents : Bytes) (count : ℕ) : ℕ :=
  ((rows newline contents).take count).flatten.length

theorem take_positionAfter (contents : Bytes) (count : ℕ) :
    contents.take (positionAfter contents count) = ((rows newline contents).take count).flatten := by
  have hsplit : contents = ((rows newline contents).take count).flatten ++
      ((rows newline contents).drop count).flatten := by
    rw [← flatten_append, take_append_drop, flatten_rows]
  exact (congrArg (List.take _) hsplit).trans (take_left' rfl)

theorem positionAfter_le (contents : Bytes) (count : ℕ) :
    positionAfter contents count ≤ contents.length := by
  have hlength := congrArg List.length (take_positionAfter contents count)
  rw [length_take] at hlength
  change min _ _ = positionAfter contents count at hlength
  omega

theorem scanBatchBackward_eq (hoffset : endOffset < (rows newline contents).length)
    (revision : HistoryFileRevision τ) :
    scanBatchBackward parse contents endOffset (positionAfter contents (endOffset + 1)) revision =
      .ok (batchOf parse revision (newestBatch (rowsUpTo contents endOffset))) := by
  have hlength : ((rows newline contents).take (endOffset + 1)).length = endOffset + 1 :=
    length_take_of_le hoffset
  have hrows : rowsBack newline
      (contents.take (positionAfter contents (endOffset + 1))).reverse [] =
      ((rows newline contents).take (endOffset + 1)).reverse := by
    rw [rowsBack_reverse newline _ [] (by simp), append_nil, take_positionAfter, rows_flatten_take]
  have hscan := result_block [] 0 endOffset (contents.take (positionAfter contents (endOffset + 1)))
    [] (by simp) (Nat.le_of_eq (by rw [hrows, length_reverse, hlength]))
  have hlocated := locatedBack_reverse 0 ((rows newline contents).take (endOffset + 1))
  rw [hlength, Nat.add_sub_cancel, Nat.zero_add] at hlocated
  rw [hrows] at hscan
  simp only [length_nil, Nat.add_zero, take_positionAfter] at hscan
  rw [hlocated, takeNewest_eq] at hscan
  have hfinish := finishMaterializedBatch_eq parse (fun row hrow =>
    in_of_mem_rowsUpTo ((newestBatch_isPrefix (rowsUpTo contents endOffset)).subset hrow)) revision
  rw [scanBatchBackward, blocks_eq (by decide) contents _ _ (positionAfter_le _ _),
    take_positionAfter]
  change BackwardScan.result (BackwardScan.block 0 ⟨[], 0, some [], 0, endOffset⟩ _) =
    (newestBatch (rowsUpTo contents endOffset)).map Row.raw at hscan
  rw [← hscan] at hfinish
  rw [← hfinish]
  generalize BackwardScan.block 0 ⟨[], 0, some [], 0, endOffset⟩ _ = result
  obtain ⟨scan, goesOn⟩ := result
  cases goesOn <;> rfl

/-! ## The rows that are left -/

theorem length_rowsUpTo (contents : Bytes) (endOffset : ℕ) :
    (rowsUpTo contents endOffset).length = min (endOffset + 1) (rows newline contents).length := by
  rw [rowsUpTo, length_reverse, length_located, length_take]

theorem newestBatch_rowsUpTo_ne_nil (hcontents : contents ≠ []) (endOffset : ℕ) :
    newestBatch (rowsUpTo contents endOffset) ≠ [] := by
  have hpos := length_pos_of_ne_nil (rows_ne_nil newline hcontents)
  have hlength := length_rowsUpTo contents endOffset
  refine newestBatch_ne_nil fun hnil => ?_
  rw [hnil, length_nil] at hlength
  omega

/-! ## Lookups -/

variable (file : HistoryFile τ)

def HistoryFile.revision : HistoryFileRevision τ := ⟨file.contents.length, file.modified⟩

/-- The cursors of a capped history have no byte position. -/
def withoutAnchor (batch : HistoryBatch ε τ) : HistoryBatch ε τ :=
  { batch with nextOlderCursor := batch.nextOlderCursor.map fun cursor =>
    { cursor with byteAnchor := none } }

/-- The batch that ends at an offset. -/
def batchAt (capped : Bool) (endOffset : ℕ) : HistoryBatch ε τ :=
  let batch := batchOf parse file.revision (newestBatch (rowsUpTo file.contents endOffset))
  if capped then withoutAnchor batch else batch

/-- The byte position of a cursor, if it has one, is behind the row of its offset. -/
def Valid (cursor : HistoryBatchCursor τ) : Prop :=
  ∀ anchor ∈ cursor.byteAnchor, cursor.endOffset < (rows newline file.contents).length ∧
    anchor = ⟨positionAfter file.contents (cursor.endOffset + 1), file.revision⟩

variable {cursor : HistoryBatchCursor τ}

theorem scanBatch_eq [DecidableEq τ] (hcursor : Valid file cursor) (capped : Bool) :
    scanBatch parse buffering file cursor capped =
      .ok (batchAt parse file capped cursor.endOffset) := by
  dsimp only [scanBatch]
  rw [scanBatchForward_eq]
  cases hanchor : cursor.byteAnchor with
  | none => cases capped <;> rfl
  | some anchor =>
    obtain ⟨hoffset, rfl⟩ := hcursor anchor hanchor
    cases capped with
    | false =>
      dsimp only
      rw [if_pos ⟨rfl, rfl⟩]
      exact scanBatchBackward_eq parse hoffset file.revision
    | true => rfl

theorem nextOlderCursor_batchAt (hcontents : file.contents ≠ []) (capped : Bool) (endOffset : ℕ) :
    ∃ older ≤ endOffset, older < (rows newline file.contents).length ∧
      rowsUpTo file.contents endOffset = newestBatch (rowsUpTo file.contents endOffset) ++
        (located 0 0 ((rows newline file.contents).take older)).reverse ∧
      (older = 0 → (batchAt parse file capped endOffset).nextOlderCursor = none) ∧
      (older ≠ 0 → ∃ cursor, (batchAt parse file capped endOffset).nextOlderCursor = some cursor ∧
        cursor.endOffset = older - 1 ∧ Valid file cursor) := by
  have hne := newestBatch_rowsUpTo_ne_nil hcontents endOffset
  obtain ⟨rest, hrest⟩ := newestBatch_isPrefix (rowsUpTo file.contents endOffset)
  have hlength := congrArg List.length hrest
  rw [length_append, length_rowsUpTo] at hlength
  have hbatch := length_pos_of_ne_nil hne
  -- the rows up to the offset are those before the batch and those of the batch
  have hsplit : (rows newline file.contents).take (endOffset + 1) =
      (rows newline file.contents).take rest.length ++
        ((rows newline file.contents).take (endOffset + 1)).drop rest.length := by
    conv_lhs => rw [← take_append_drop rest.length (take _ _), take_take, Nat.min_eq_left (by omega)]
  have hlocated : rowsUpTo file.contents endOffset =
      (located rest.length (positionAfter file.contents rest.length)
        (((rows newline file.contents).take (endOffset + 1)).drop rest.length)).reverse ++
      (located 0 0 ((rows newline file.contents).take rest.length)).reverse := by
    rw [rowsUpTo, hsplit, located_append, reverse_append, Nat.zero_add, Nat.zero_add,
      length_take_of_le (by omega), ← hsplit]
    rfl
  have hparts := append_inj' (hrest.trans hlocated) (by
    rw [length_reverse, length_located, length_take_of_le (by omega)])
  have hnext : nextCursor file.revision ((newestBatch (rowsUpTo file.contents endOffset)).map
      Row.raw) = if rest.length = 0 then none else some ⟨rest.length - 1,
        file.revision.modified.map fun _ =>
          ⟨positionAfter file.contents rest.length, file.revision⟩⟩ := by
    cases hdrop : ((rows newline file.contents).take (endOffset + 1)).drop rest.length with
    | nil =>
      rw [hdrop] at hparts
      exact absurd hparts.1 hne
    | cons bytes later =>
      rw [hdrop, located, reverse_cons] at hparts
      rw [hparts.1, nextCursor, map_append, map_singleton, getLast?_concat]
      rfl
  refine ⟨rest.length, by omega, by omega, by rw [← hparts.2, hrest], fun hzero => ?_,
    fun hpos => ?_⟩
  · rw [if_pos hzero] at hnext
    cases capped with
    | false => exact hnext
    | true => exact congrArg (Option.map _) hnext
  · rw [if_neg hpos] at hnext
    cases capped with
    | false =>
      refine ⟨_, hnext, rfl, ?_⟩
      intro anchor hanchor
      obtain ⟨time, -, rfl⟩ := Option.map_eq_some_iff.mp hanchor
      dsimp only
      rw [Nat.sub_add_cancel (Nat.one_le_iff_ne_zero.mpr hpos)]
      exact ⟨by omega, rfl⟩
    | true => exact ⟨_, congrArg (Option.map _) hnext, rfl, fun anchor hanchor => by cases hanchor⟩

theorem nextOlderCursor_batchAt_of_empty (hcontents : file.contents = []) (capped : Bool)
    (endOffset : ℕ) : (batchAt parse file capped endOffset).nextOlderCursor = none := by
  have hnone : rowsUpTo file.contents endOffset = [] := by
    rw [hcontents]
    rfl
  rw [batchAt, hnone]
  cases capped <;> rfl

/-- The cursors that batches give are valid. -/
theorem valid_nextOlderCursor {capped : Bool}
    (h : (batchAt parse file capped endOffset).nextOlderCursor = some cursor) :
    Valid file cursor := by
  by_cases hcontents : file.contents = []
  · rw [nextOlderCursor_batchAt_of_empty parse file hcontents] at h
    cases h
  · obtain ⟨older, -, -, -, hfirst, hmore⟩ :=
      nextOlderCursor_batchAt parse file hcontents capped endOffset
    by_cases hzero : older = 0
    · rw [hfirst hzero] at h
      cases h
    · obtain ⟨next, hnext, -, hvalid⟩ := hmore hzero
      rw [hnext] at h
      cases h
      exact hvalid

theorem entries_batchAt (capped : Bool) (endOffset : ℕ) :
    (batchAt parse file capped endOffset).entries =
      (newestBatch (rowsUpTo file.contents endOffset)).map (parsed parse) := by
  cases capped <;> rfl

/-- The batches from a cursor on have all rows up to its offset. -/
theorem olderBatches_eq [DecidableEq τ] (capped : Bool) (hcursor : Valid file cursor) {fuel : ℕ}
    (hfuel : cursor.endOffset < fuel) :
    ∃ batches, olderBatches parse buffering file capped fuel cursor = .ok (some batches) ∧
      batches.flatMap HistoryBatch.entries =
        (rowsUpTo file.contents cursor.endOffset).map (parsed parse) ∧
      ∀ batch ∈ batches, ∃ endOffset, batch = batchAt parse file capped endOffset := by
  induction fuel generalizing cursor with
  | zero => omega
  | succ fuel ih =>
    rw [olderBatches, scanBatch_eq parse buffering file hcursor]
    dsimp only [bind, Except.bind]
    by_cases hcontents : file.contents = []
    · have hnone : rowsUpTo file.contents cursor.endOffset = [] := by
        rw [hcontents]
        rfl
      rw [nextOlderCursor_batchAt_of_empty parse file hcontents]
      refine ⟨[batchAt parse file capped cursor.endOffset], rfl, ?_, ?_⟩
      · rw [flatMap_singleton, entries_batchAt, hnone]
        rfl
      · exact fun batch hbatch => ⟨cursor.endOffset, mem_singleton.mp hbatch⟩
    · obtain ⟨older, hle, hlt, hsplit, hfirst, hmore⟩ :=
        nextOlderCursor_batchAt parse file hcontents capped cursor.endOffset
      by_cases hzero : older = 0
      · rw [hfirst hzero]
        refine ⟨[batchAt parse file capped cursor.endOffset], rfl, ?_, ?_⟩
        · rw [flatMap_singleton, entries_batchAt]
          nth_rewrite 2 [hsplit]
          rw [hzero]
          simp [located]
        · exact fun batch hbatch => ⟨cursor.endOffset, mem_singleton.mp hbatch⟩
      · obtain ⟨next, hnext, hoffset, hvalid⟩ := hmore hzero
        obtain ⟨batches, hbatches, hentries, hall⟩ := ih hvalid (by omega)
        rw [hnext]
        dsimp only
        rw [hbatches]
        refine ⟨batchAt parse file capped cursor.endOffset :: batches, rfl, ?_, ?_⟩
        · have hleft : rowsUpTo file.contents (older - 1) =
              (located 0 0 ((rows newline file.contents).take older)).reverse := by
            rw [rowsUpTo, Nat.sub_add_cancel (Nat.one_le_iff_ne_zero.mpr hzero)]
          rw [flatMap_cons, hentries, entries_batchAt, hoffset, ← map_append, hleft, ← hsplit]
        · exact forall_mem_cons.mpr ⟨⟨cursor.endOffset, rfl⟩, hall⟩

/-- The bytes of the rows of a batch. -/
def batchBytes (batch : HistoryBatch ε τ) : ℕ :=
  total (fun entry => ((rows newline file.contents).getD entry.offset []).length) batch.entries

theorem bytes_of_mem_rowsUpTo {row : Row} (h : row ∈ rowsUpTo contents endOffset) :
    (rows newline contents)[row.offset]? = some row.bytes := by
  obtain ⟨index, hoffset, hget⟩ := exists_offset_of_mem_located (mem_reverse.mp h)
  rw [Nat.zero_add] at hoffset
  rw [hoffset]
  rw [getElem?_take] at hget
  split_ifs at hget
  exact hget

theorem batchBytes_batchAt (capped : Bool) (endOffset : ℕ) :
    batchBytes file (batchAt parse file capped endOffset) =
      total Row.length (newestBatch (rowsUpTo file.contents endOffset)) := by
  rw [batchBytes, entries_batchAt, total, map_map]
  congr 1
  refine map_congr_left fun row hrow => ?_
  have hbytes := bytes_of_mem_rowsUpTo ((newestBatch_isPrefix _).subset hrow)
  change ((rows newline file.contents).getD row.offset []).length = row.length
  rw [getD_eq_getElem?_getD, hbytes]
  rfl

theorem map_parsed_located (offset position : ℕ) (bytes : List Bytes) :
    (located offset position bytes).map (parsed parse) = (bytes.zipIdx offset).map fun numbered =>
      (⟨numbered.2, tryParseEntry parse numbered.1⟩ : HistoryBatchEntry ε) := by
  induction bytes generalizing offset position with
  | nil => rfl
  | cons row bytes ih =>
    rw [located, map_cons, ih]
    rfl

/-- Following the cursors from any offset gives all rows from there back to the first, each once and
with its own offset.  The batches are within the limits, and none is empty while there are rows.  The
scan backward from a cursor gives what the scan from the beginning gives. -/
theorem cursors_cover_history [DecidableEq τ] (capped : Bool) (start : ℕ) :
    ∃ batches, olderBatches parse buffering file capped (start + 1) (.new start) =
        .ok (some batches) ∧
      batches.flatMap HistoryBatch.entries =
        ((((rows newline file.contents).take (start + 1)).zipIdx).map fun numbered =>
          (⟨numbered.2, tryParseEntry parse numbered.1⟩ : HistoryBatchEntry ε)).reverse ∧
      ∀ batch ∈ batches, (file.contents ≠ [] → batch.entries ≠ []) ∧
        (batch.entries.length ≤ maxBatchRows ∧ batchBytes file batch ≤ maxBatchBytes ∨
          batch.entries.length = 1 ∧ maxBatchBytes < batchBytes file batch) ∧
        ∀ cursor ∈ batch.nextOlderCursor, ∀ anchor ∈ cursor.byteAnchor,
          ∃ older : HistoryBatch ε τ,
            scanBatchBackward parse file.contents cursor.endOffset anchor.position file.revision =
              .ok older ∧
            scanBatchForward parse buffering file.contents cursor.endOffset file.revision =
              .ok older := by
  have hnew : Valid file (.new start) := fun anchor hanchor => by cases hanchor
  obtain ⟨batches, hbatches, hentries, hall⟩ :=
    olderBatches_eq parse buffering file capped hnew (Nat.lt_succ_self start)
  rw [rowsUpTo, map_reverse, map_parsed_located] at hentries
  refine ⟨batches, hbatches, hentries, fun batch hbatch => ?_⟩
  obtain ⟨endOffset, rfl⟩ := hall batch hbatch
  rw [entries_batchAt, batchBytes_batchAt, length_map]
  refine ⟨fun hcontents hnil => ?_, ?_, fun cursor hcursor anchor hanchor => ?_⟩
  · exact newestBatch_rowsUpTo_ne_nil hcontents endOffset (map_eq_nil_iff.mp hnil)
  · rcases fits_newestBatch (rowsUpTo file.contents endOffset) with hfits | ⟨row, hrow, hlarge⟩
    · exact .inl hfits
    · rw [hrow]
      exact .inr ⟨rfl, hlarge⟩
  · obtain ⟨hoffset, rfl⟩ := valid_nextOlderCursor parse file hcursor anchor hanchor
    exact ⟨_, scanBatchBackward_eq parse hoffset _, scanBatchForward_eq parse buffering _ _ _⟩

end Codex.MessageHistory
