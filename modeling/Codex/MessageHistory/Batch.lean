import Codex.Lib.Budget
import Codex.Lib.Rows

/-!
# Batches of the message history

The history is a file of rows.  A lookup returns the newest rows up to some offset, as many as fit
into a batch, and a cursor for the rows before them.  The first lookup reads the file from its
beginning and keeps the end of what it has read.  The cursor of an uncapped history also has the byte
position of the oldest row returned, and from there the next lookup reads backward, in blocks.
-/

namespace Codex.MessageHistory

abbrev Bytes := List UInt8

def historyReadBufferSize : ℕ := 8192

def maxBatchRows : ℕ := 128

def maxBatchBytes : ℕ := 64 * 1024

def newline : UInt8 := 10

def carriageReturn : UInt8 := 13

structure HistoryFileRevision (τ : Type*) where
  len : ℕ
  modified : Option τ
  deriving DecidableEq

structure HistoryByteAnchor (τ : Type*) where
  position : ℕ
  revision : HistoryFileRevision τ

structure HistoryBatchCursor (τ : Type*) where
  endOffset : ℕ
  byteAnchor : Option (HistoryByteAnchor τ)

def HistoryBatchCursor.new {τ : Type*} (endOffset : ℕ) : HistoryBatchCursor τ := ⟨endOffset, none⟩

structure HistoryBatchEntry (ε : Type*) where
  offset : ℕ
  entry : Option ε

structure HistoryBatch (ε τ : Type*) where
  entries : List (HistoryBatchEntry ε)
  nextOlderCursor : Option (HistoryBatchCursor τ)

structure RawHistoryBatchEntry where
  offset : ℕ
  bytePosition : ℕ
  byteLen : ℕ
  /-- Rows that are too long are not buffered. -/
  bytes : Option Bytes

inductive IoError where
  | unexpectedEof
  | notMaterialized

/-- An unchanged history file. -/
structure HistoryFile (τ : Type*) where
  contents : Bytes
  modified : Option τ

/-- How a buffered reader gets the contents of a file: piece by piece, none of them empty. -/
structure Buffering where
  split : Bytes → List Bytes
  flatten_split : ∀ contents, (split contents).flatten = contents
  ne_nil : ∀ contents, ∀ buffer ∈ split contents, buffer ≠ []

/-- `read_exact` at a position of the file. -/
def readExact (contents : Bytes) (position length : ℕ) : Except IoError Bytes :=
  if position + length ≤ contents.length then .ok ((contents.drop position).take length)
  else .error .unexpectedEof

section Parse

variable {ε τ : Type} (parse : Bytes → Option ε)

def stripSuffix (byte : UInt8) (raw : Bytes) : Bytes :=
  if raw.getLast? = some byte then raw.dropLast else raw

def tryParseEntry (raw : Bytes) : Option ε :=
  parse (stripSuffix carriageReturn (stripSuffix newline raw))

/-! ## The end of a scan -/

def materialize (contents : Bytes) (entry : RawHistoryBatchEntry) :
    Except IoError RawHistoryBatchEntry :=
  match entry.bytes with
  | some _ => .ok entry
  | none =>
    match readExact contents entry.bytePosition entry.byteLen with
    | .error error => .error error
    | .ok bytes => .ok { entry with bytes := some bytes }

def parseRaw (raw : RawHistoryBatchEntry) : Except IoError (HistoryBatchEntry ε) :=
  match raw.bytes with
  | none => .error .notMaterialized
  | some bytes => .ok ⟨raw.offset, tryParseEntry parse bytes⟩

def nextCursor (revision : HistoryFileRevision τ) (entries : List RawHistoryBatchEntry) :
    Option (HistoryBatchCursor τ) :=
  match entries.getLast? with
  | none => none
  | some entry =>
    if entry.offset = 0 then none
    else some ⟨entry.offset - 1, revision.modified.map fun _ => ⟨entry.bytePosition, revision⟩⟩

def finishBatch (entries : List RawHistoryBatchEntry) (revision : HistoryFileRevision τ) :
    Except IoError (HistoryBatch ε τ) := do
  let parsed ← entries.mapM (parseRaw parse)
  return ⟨parsed, nextCursor revision entries⟩

def finishMaterializedBatch (contents : Bytes) (entries : List RawHistoryBatchEntry)
    (revision : HistoryFileRevision τ) : Except IoError (HistoryBatch ε τ) := do
  let materialized ← entries.mapM (materialize contents)
  finishBatch parse materialized revision

end Parse

/-! ## The scan from the beginning -/

/-- The `while` of `retain_row`.  There is always a row to drop, since the bytes are those of the
rows. -/
def trimSuffix : List RawHistoryBatchEntry → ℕ → List RawHistoryBatchEntry × ℕ
  | [], suffixBytes => ([], suffixBytes)
  | removed :: suffix, suffixBytes =>
    if maxBatchRows < (removed :: suffix).length ∨ maxBatchBytes < suffixBytes then
      trimSuffix suffix (suffixBytes - removed.byteLen)
    else (removed :: suffix, suffixBytes)

/-- The suffix holds the rows from the oldest to the newest. -/
def retainRow (suffix : List RawHistoryBatchEntry) (suffixBytes : ℕ) (entry : RawHistoryBatchEntry) :
    List RawHistoryBatchEntry × ℕ :=
  if maxBatchBytes < entry.byteLen then ([entry], entry.byteLen)
  else trimSuffix (suffix ++ [entry]) (suffixBytes + entry.byteLen)

/-- More bytes of a row, which is not buffered any more once it is too long. -/
def buffer (bytes : Option Bytes) (byteLen : ℕ) (more : Bytes) : Option Bytes :=
  match bytes with
  | none => none
  | some buffered => if byteLen ≤ maxBatchBytes then some (buffered ++ more) else none

structure ReadRow where
  byteLen : ℕ
  bytes : Option Bytes
  /-- What the reader still has. -/
  rest : List Bytes

/-- The inner loop of the scan.  There is no row at the end of the file. -/
def readRow (byteLen : ℕ) (bytes : Option Bytes) : List Bytes → Option ReadRow
  | [] => if byteLen = 0 then none else some ⟨byteLen, bytes, []⟩
  | piece :: later =>
    match piece.findIdx? (· = newline) with
    | some index =>
      let consumed := index + 1
      some ⟨byteLen + consumed, buffer bytes (byteLen + consumed) (piece.take consumed),
        if piece.drop consumed = [] then later else piece.drop consumed :: later⟩
    | none =>
      readRow (byteLen + piece.length) (buffer bytes (byteLen + piece.length) piece) later

/-- The outer loop, with the number of rows that are still to be read. -/
def scanRows : ℕ → ℕ → ℕ → List Bytes → List RawHistoryBatchEntry → ℕ → List RawHistoryBatchEntry
  | 0, _, _, _, suffix, _ => suffix
  | count + 1, offset, bytePosition, reader, suffix, suffixBytes =>
    match readRow 0 (some []) reader with
    | none => suffix
    | some row =>
      let kept := retainRow suffix suffixBytes ⟨offset, bytePosition, row.byteLen, row.bytes⟩
      scanRows count (offset + 1) (bytePosition + row.byteLen) row.rest kept.1 kept.2

section Scan

variable {ε τ : Type} (parse : Bytes → Option ε) (buffering : Buffering)

def scanBatchForward (contents : Bytes) (endOffset : ℕ) (revision : HistoryFileRevision τ) :
    Except IoError (HistoryBatch ε τ) :=
  finishMaterializedBatch parse contents
    (scanRows (endOffset + 1) 0 0 (buffering.split contents) [] 0).reverse revision

/-! ## The scan backward -/

/-- Keeps one more row, and says whether the scan goes on. -/
def retainNewestRow (entries : List RawHistoryBatchEntry) (entriesBytes : ℕ)
    (entry : RawHistoryBatchEntry) : (List RawHistoryBatchEntry × ℕ) × Bool :=
  if entries = [] ∧ maxBatchBytes < entry.byteLen then ((entries ++ [entry], entriesBytes), false)
  else if entries.length = maxBatchRows ∨ maxBatchBytes < entriesBytes + entry.byteLen then
    ((entries, entriesBytes), false)
  else ((entries ++ [entry], entriesBytes + entry.byteLen), true)

structure BackwardScan where
  entries : List RawHistoryBatchEntry
  entriesBytes : ℕ
  reversedRow : Option Bytes
  rowByteLen : ℕ
  offset : ℕ

/-- One byte at its position in the file, and whether the scan goes on. -/
def BackwardScan.byte (scan : BackwardScan) (position : ℕ) (byte : UInt8) : BackwardScan × Bool :=
  if byte = newline ∧ 0 < scan.rowByteLen then
    match retainNewestRow scan.entries scan.entriesBytes
      ⟨scan.offset, position + 1, scan.rowByteLen, scan.reversedRow.map List.reverse⟩ with
    | ((entries, entriesBytes), false) =>
      ({ scan with entries := entries, entriesBytes := entriesBytes }, false)
    | ((entries, entriesBytes), true) =>
      if scan.offset = 0 then
        ({ scan with entries := entries, entriesBytes := entriesBytes }, false)
      else (⟨entries, entriesBytes, some [newline], 1, scan.offset - 1⟩, true)
  else
    ({ scan with
      rowByteLen := scan.rowByteLen + 1
      reversedRow := buffer scan.reversedRow (scan.rowByteLen + 1) [byte] }, true)

/-- The bytes of one block, from its end. -/
def BackwardScan.block (readStart : ℕ) (scan : BackwardScan) : Bytes → BackwardScan × Bool
  | [] => (scan, true)
  | byte :: older =>
    match scan.byte (readStart + older.length) byte with
    | (scan, false) => (scan, false)
    | (scan, true) => scan.block readStart older

/-- The blocks before a position. -/
def BackwardScan.blocks (blockSize : ℕ) (contents : Bytes) (scan : BackwardScan) (readEnd : ℕ) :
    Except IoError (BackwardScan × Bool) :=
  if _h : readEnd = 0 ∨ blockSize = 0 then .ok (scan, true)
  else
    let readStart := readEnd - blockSize
    match readExact contents readStart (readEnd - readStart) with
    | .error error => .error error
    | .ok bytes =>
      match scan.block readStart bytes.reverse with
      | (scan, false) => .ok (scan, false)
      | (scan, true) => scan.blocks blockSize contents readStart
termination_by readEnd
decreasing_by omega

/-- The row at the beginning of the file. -/
def BackwardScan.finish (scan : BackwardScan) : List RawHistoryBatchEntry :=
  if 0 < scan.rowByteLen then
    (retainNewestRow scan.entries scan.entriesBytes
      ⟨scan.offset, 0, scan.rowByteLen, scan.reversedRow.map List.reverse⟩).1.1
  else scan.entries

def scanBatchBackward (contents : Bytes) (endOffset endBytePosition : ℕ)
    (revision : HistoryFileRevision τ) : Except IoError (HistoryBatch ε τ) :=
  match BackwardScan.blocks historyReadBufferSize contents ⟨[], 0, some [], 0, endOffset⟩
    endBytePosition with
  | .error error => .error error
  | .ok (scan, false) => finishMaterializedBatch parse contents scan.entries revision
  | .ok (scan, true) => finishMaterializedBatch parse contents scan.finish revision

/-! ## Lookups -/

variable [DecidableEq τ]

/-- `scan_batch`, for a history that is capped or not. -/
def scanBatch (file : HistoryFile τ) (cursor : HistoryBatchCursor τ) (capped : Bool) :
    Except IoError (HistoryBatch ε τ) :=
  let revision : HistoryFileRevision τ := ⟨file.contents.length, file.modified⟩
  let forward : Except IoError (HistoryBatch ε τ) := do
    let batch ← scanBatchForward parse buffering file.contents cursor.endOffset revision
    if capped then
      return { batch with nextOlderCursor := batch.nextOlderCursor.map fun cursor =>
        { cursor with byteAnchor := none } }
    else return batch
  match cursor.byteAnchor with
  | none => forward
  | some anchor =>
    if capped = false ∧ anchor.revision = revision then
      scanBatchBackward parse file.contents cursor.endOffset anchor.position revision
    else forward

/-- The batches of a cursor and of those that follow it, as long as the fuel lasts. -/
def olderBatches (file : HistoryFile τ) (capped : Bool) :
    ℕ → HistoryBatchCursor τ → Except IoError (Option (List (HistoryBatch ε τ)))
  | 0, _ => .ok none
  | fuel + 1, cursor => do
      let batch ← scanBatch parse buffering file cursor capped
      match batch.nextOlderCursor with
      | none => return some [batch]
      | some older =>
        let batches ← olderBatches file capped fuel older
        return batches.map (batch :: ·)

end Scan

end Codex.MessageHistory
