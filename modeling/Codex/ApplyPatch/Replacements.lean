import Codex.ApplyPatch.ContextLines
import Codex.ApplyPatch.SeekSequence
import Codex.Lib.Splice

/-!
# Where the chunks of an update go

`compute_replacements` walks through the chunks with a cursor: every chunk is looked for
at or after the line where the one before it ended, and is turned into the replacements
between its context lines.  Here the search is separated from the replacements.  A
`Placement` says where a chunk was looked for and which lines it matched, and
`computeChunks_of_placements` gives the replacements of the code from the placements.

The results: the replacements of parsed chunks are in order, do not overlap and are in
bounds, so that nothing in `compute_replacements` or `apply_replacements` goes out of
range; and when a chunk marked with the end of the file is placed there.

* `computeReplacements_in_order` goes through `flatMap_replacements_ordered` (the replacements of
  placed chunks are in order before they are sorted) and `insertionSort_endsBefore` (sorting by
  the start keeps them apart).
* `endOfFile_chunks_at_end_iff` is `end_eq_length_iff` for each chunk.  The exception is real:
  `end_of_file_chunk_at_beginning`.
-/

namespace Codex.ApplyPatch

open Text List

/-! ## The search -/

variable {lines pattern : List Str} {searchStart : ℕ}

/-- A pattern is found at or after the start, inside the file, and at its end if that is
asked for. -/
structure FoundAt (lines pattern : List Str) (start : ℕ) (eof : Bool) (i : ℕ) : Prop where
  start_le : start ≤ i
  le_length : i + pattern.length ≤ lines.length
  at_end : eof = true → i + pattern.length = lines.length

theorem foundAt_of_seekSequence {start i : ℕ} {eof : Bool} (hpattern : pattern ≠ [])
    (h : seekSequence lines pattern start eof = some i) : FoundAt lines pattern start eof i := by
  rw [seekSequence_eq hpattern, findSome?_eq_some_iff] at h
  obtain ⟨_, view, _, -, hfound, -⟩ := h
  obtain ⟨hfirst, hlength, -⟩ := (findWindow_eq_some_iff.mp hfound).1
  cases eof with
  | false => exact ⟨hfirst, hlength, fun heof => by cases heof⟩
  | true =>
    rw [searchFrom, if_pos rfl, Nat.max_le] at hfirst
    exact ⟨hfirst.2, hlength, fun _ => by omega⟩

/-! ## Placements -/

/-- A chunk, the line from which its old lines were looked for, and the lines it matched. -/
structure Placement where
  chunk : UpdateFileChunk
  searchStart : ℕ
  start : ℕ
  matched : ℕ
  deriving DecidableEq, Repr

/-- The line after the change context of the chunk, or the cursor if it has none. -/
def afterContext (lines : List Str) (cursor : ℕ) (chunk : UpdateFileChunk) : Option ℕ :=
  match chunk.changeContext with
  | none => some cursor
  | some ctxLine => (seekSequence lines [ctxLine] cursor false).map (· + 1)

/-- The first matched line of the chunk and the number of its old lines that are matched:
all of them, or all but a final empty one.  A chunk without old lines is at the end of
the file. -/
def matchedRegion (lines : List Str) (searchStart : ℕ) (chunk : UpdateFileChunk) : Option (ℕ × ℕ) :=
  if chunk.oldLines = [] then some (lines.length, 0)
  else
    match seekSequence lines chunk.oldLines searchStart chunk.isEndOfFile with
    | some start => some (start, chunk.oldLines.length)
    | none =>
      if chunk.oldLines.getLast? = some [] then
        (seekSequence lines chunk.oldLines.dropLast searchStart chunk.isEndOfFile).map
          fun start => (start, chunk.oldLines.length - 1)
      else none

def place (lines : List Str) (cursor : ℕ) (chunk : UpdateFileChunk) : Option Placement :=
  (afterContext lines cursor chunk).bind fun searchStart =>
    (matchedRegion lines searchStart chunk).map fun region =>
      ⟨chunk, searchStart, region.1, region.2⟩

namespace Placement

/-- The cursor after the chunk. -/
def next (p : Placement) : ℕ :=
  if p.chunk.oldLines = [] then p.searchStart else p.start + p.matched

/-- The new lines that take part: without a final empty line if the old lines lost theirs. -/
def newSlice (p : Placement) : List Str :=
  if p.matched = p.chunk.oldLines.length then p.chunk.newLines
  else if p.chunk.newLines.getLast? = some [] then p.chunk.newLines.dropLast
  else p.chunk.newLines

end Placement

/-- The chunks one after the other, from the cursor on. -/
def placements (lines : List Str) : ℕ → List UpdateFileChunk → Option (List Placement)
  | _, [] => some []
  | cursor, chunk :: rest =>
    (place lines cursor chunk).bind fun p =>
      (placements lines p.next rest).map fun later => p :: later

/-- What the search gives: the places of the chunk in a file of `length` lines. -/
structure Placed (length cursor : ℕ) (p : Placement) : Prop where
  cursor_le : cursor ≤ p.searchStart
  searchStart_le : p.searchStart ≤ length
  end_le : p.start + p.matched ≤ length
  addition : p.chunk.oldLines = [] → p.start = length ∧ p.matched = 0
  searchStart_le_start : p.chunk.oldLines ≠ [] → p.searchStart ≤ p.start
  matched_eq : p.matched = p.chunk.oldLines.length ∨
    p.matched + 1 = p.chunk.oldLines.length ∧ p.chunk.oldLines.getLast? = some []

variable {cursor : ℕ} {chunk : UpdateFileChunk}

theorem afterContext_bounds (hcursor : cursor ≤ lines.length)
    (h : afterContext lines cursor chunk = some searchStart) :
    cursor ≤ searchStart ∧ searchStart ≤ lines.length := by
  unfold afterContext at h
  split at h
  · cases h
    exact ⟨le_rfl, hcursor⟩
  · next ctxLine _ =>
      obtain ⟨i, hi, rfl⟩ := Option.map_eq_some_iff.mp h
      have hfound := foundAt_of_seekSequence (cons_ne_nil _ _) hi
      have hlength := hfound.le_length
      exact ⟨hfound.start_le.trans (Nat.le_succ i), hlength⟩

theorem placed_of_place {p : Placement} (hcursor : cursor ≤ lines.length)
    (h : place lines cursor chunk = some p) : p.chunk = chunk ∧ Placed lines.length cursor p := by
  obtain ⟨searchStart, hsearch, h⟩ := Option.bind_eq_some_iff.mp h
  obtain ⟨⟨start, count⟩, hregion, rfl⟩ := Option.map_eq_some_iff.mp h
  obtain ⟨hfrom, hto⟩ := afterContext_bounds hcursor hsearch
  refine ⟨rfl, ?_⟩
  unfold matchedRegion at hregion
  split at hregion
  · next hold =>
      cases hregion
      exact ⟨hfrom, hto, le_rfl, fun _ => ⟨rfl, rfl⟩, fun hne => absurd hold hne,
        .inl (by rw [hold]; rfl)⟩
  · next hold =>
      split at hregion
      · next found hfound =>
          cases hregion
          have hbounds := foundAt_of_seekSequence hold hfound
          exact ⟨hfrom, hto, hbounds.le_length, fun hnil => absurd hnil hold,
            fun _ => hbounds.start_le, .inl rfl⟩
      · split at hregion
        · next hlast =>
            obtain ⟨found, hfound, hpair⟩ := Option.map_eq_some_iff.mp hregion
            cases hpair
            have hpos : 0 < chunk.oldLines.length := length_pos_iff.mpr hold
            have hmatched : chunk.oldLines.length - 1 + 1 = chunk.oldLines.length := by omega
            by_cases hpattern : chunk.oldLines.dropLast = []
            · -- the pattern is empty, and found where the search began
              rw [hpattern] at hfound
              cases hfound
              have hzero : chunk.oldLines.length - 1 = 0 := by
                rw [← length_dropLast, hpattern]
                rfl
              exact ⟨hfrom, hto, by simpa [hzero] using hto, fun hnil => absurd hnil hold,
                fun _ => le_rfl, .inr ⟨hmatched, hlast⟩⟩
            · have hbounds := foundAt_of_seekSequence hpattern hfound
              have hend := hbounds.le_length
              rw [length_dropLast] at hend
              exact ⟨hfrom, hto, hend, fun hnil => absurd hnil hold,
                fun _ => hbounds.start_le, .inr ⟨hmatched, hlast⟩⟩
        · cases hregion

theorem Placed.next_le {length : ℕ} {p : Placement} (h : Placed length cursor p) :
    cursor ≤ p.next ∧ p.next ≤ length := by
  unfold Placement.next
  split
  · exact ⟨h.cursor_le, h.searchStart_le⟩
  · next hold =>
      have hstart := h.searchStart_le_start hold
      have hcursor := h.cursor_le
      exact ⟨by omega, h.end_le⟩

/-! ## The replacements of one chunk -/

/-- The replacements between the context lines, from the old line `oldStart` and the new
line `newStart` on, empty ones included. -/
def pieces (startIdx matched : ℕ) (newSlice : List Str) : ℕ → ℕ → List (ℕ × ℕ) → List Replacement
  | oldStart, newStart, [] =>
    [(startIdx + oldStart, matched - oldStart, newSlice.drop newStart)]
  | oldStart, newStart, (oldContext, newContext) :: rest =>
    (startIdx + oldStart, oldContext - oldStart, (newSlice.take newContext).drop newStart) ::
      pieces startIdx matched newSlice (oldContext + 1) (newContext + 1) rest

/-- The replacement changes something. -/
def Replacement.isChange (r : Replacement) : Bool := r.2.1 ≠ 0 || r.2.2 ≠ []

/-- The context lines are in order and at or after the lines `oldStart` and `newStart`. -/
structure ContextsFrom (oldStart newStart : ℕ) (contexts : List (ℕ × ℕ)) : Prop where
  increasing : contexts.Pairwise fun i j => i.1 < j.1 ∧ i.2 < j.2
  start_le : ∀ i ∈ contexts, oldStart ≤ i.1 ∧ newStart ≤ i.2

variable {oldStart newStart : ℕ}

theorem ContextsFrom.tail {context : ℕ × ℕ} {rest : List (ℕ × ℕ)}
    (h : ContextsFrom oldStart newStart (context :: rest)) :
    ContextsFrom (context.1 + 1) (context.2 + 1) rest := by
  obtain ⟨hhead, htail⟩ := pairwise_cons.mp h.increasing
  exact ⟨htail, fun i hi => hhead i hi⟩

/-- The context lines that are among the matched old lines and the new lines taking part. -/
def activeContexts (matched newLength : ℕ) (contexts : List (ℕ × ℕ)) : List (ℕ × ℕ) :=
  contexts.takeWhile fun i => i.1 < matched && i.2 < newLength

variable {contexts : List (ℕ × ℕ)}

theorem activeContexts_bounds {matched newLength : ℕ} :
    ∀ i ∈ activeContexts matched newLength contexts, i.1 < matched ∧ i.2 < newLength := by
  intro i hi
  simpa using mem_takeWhile_imp hi

theorem ContextsFrom.active (h : ContextsFrom oldStart newStart contexts) (matched newLength : ℕ) :
    ContextsFrom oldStart newStart (activeContexts matched newLength contexts) :=
  ⟨h.increasing.sublist (takeWhile_sublist _),
    fun i hi => h.start_le i ((takeWhile_sublist _).subset hi)⟩

variable {newSlice : List Str}

open Replacement

theorem isChange_eq {i removed : ℕ} {added : List Str} (hold : oldStart ≤ removed)
    (hnew : newStart ≤ added.length) :
    isChange (i, removed - oldStart, added.drop newStart) =
      decide (oldStart ≠ removed ∨ newStart ≠ added.length) := by
  rw [Bool.eq_iff_iff]
  simp only [isChange, Bool.or_eq_true, decide_eq_true_eq, ne_eq, drop_eq_nil_iff]
  omega

/-- The replacements of the code are the pieces that change something; in particular no
range is out of order. -/
theorem chunkReplacements_eq {startIdx : ℕ} (h : ContextsFrom oldStart newStart contexts)
    (hold : oldStart ≤ pattern.length) (hnew : newStart ≤ newSlice.length) :
    chunkReplacements startIdx pattern newSlice oldStart newStart contexts =
      some ((pieces startIdx pattern.length newSlice oldStart newStart
        (activeContexts pattern.length newSlice.length contexts)).filter isChange) := by
  have htail : ∀ oldStart newStart, oldStart ≤ pattern.length → newStart ≤ newSlice.length →
      chunkReplacements.tailReplacement startIdx pattern newSlice oldStart newStart =
        some ((pieces startIdx pattern.length newSlice oldStart newStart []).filter isChange) := by
    intro oldStart newStart hold hnew
    rw [chunkReplacements.tailReplacement, pieces, filter_singleton, isChange_eq hold hnew]
    by_cases hchange : oldStart ≠ pattern.length ∨ newStart ≠ newSlice.length
    · rw [if_pos hchange, if_neg (by omega), decide_eq_true hchange]
      simp [slice, hnew]
    · rw [if_neg hchange, decide_eq_false hchange]
      rfl
  induction contexts generalizing oldStart newStart with
  | nil =>
    exact htail oldStart newStart hold hnew
  | cons context rest ih =>
    obtain ⟨oldContext, newContext⟩ := context
    rw [chunkReplacements]
    by_cases hout : pattern.length ≤ oldContext ∨ newSlice.length ≤ newContext
    · rw [if_pos hout, activeContexts, takeWhile_cons_of_neg (by simp; omega)]
      exact htail oldStart newStart hold hnew
    · obtain ⟨holdStart, hnewStart⟩ := h.start_le _ mem_cons_self
      have hrest := ih h.tail (by simp only; omega) (by simp only; omega)
      have hlength : (newSlice.take newContext).length = newContext := by
        rw [length_take]
        omega
      have hpiece := isChange_eq holdStart (hnewStart.trans_eq hlength.symm) (i := startIdx + oldStart)
      rw [hlength] at hpiece
      rw [if_neg hout, activeContexts, takeWhile_cons_of_pos (by simp; omega), ← activeContexts, hrest,
        pieces, filter_cons, hpiece]
      have hslice : slice newSlice newStart newContext =
          some ((newSlice.take newContext).drop newStart) := by
        rw [slice, if_pos (by omega)]
      by_cases hchange : oldStart ≠ oldContext ∨ newStart ≠ newContext
      · simp [hchange, Nat.not_lt.mpr holdStart, hslice]
      · simp [hchange]

/-- One replacement ends where another begins or before. -/
def Replacement.EndsBefore (r r' : Replacement) : Prop := r.1 + r.2.1 ≤ r'.1

/-- The pieces are inside the matched lines. -/
theorem pieces_bounds {startIdx matched : ℕ} (h : ContextsFrom oldStart newStart contexts)
    (hold : oldStart ≤ matched) (hcontexts : ∀ i ∈ contexts, i.1 < matched) :
    ∀ r ∈ pieces startIdx matched newSlice oldStart newStart contexts,
      startIdx + oldStart ≤ r.1 ∧ r.1 + r.2.1 ≤ startIdx + matched := by
  induction contexts generalizing oldStart newStart with
  | nil =>
    intro r hr
    obtain rfl := mem_singleton.mp hr
    simp only
    omega
  | cons context rest ih =>
    intro r hr
    have hstart := h.start_le _ mem_cons_self
    have hcontext := hcontexts _ mem_cons_self
    rcases mem_cons.mp hr with rfl | hr
    · simp only
      omega
    · have hrest := ih h.tail hcontext (fun i hi => hcontexts i (mem_cons_of_mem _ hi)) r hr
      omega

theorem pieces_ordered {startIdx matched : ℕ} (h : ContextsFrom oldStart newStart contexts)
    (hcontexts : ∀ i ∈ contexts, i.1 < matched) :
    (pieces startIdx matched newSlice oldStart newStart contexts).Pairwise
      EndsBefore := by
  induction contexts generalizing oldStart newStart with
  | nil => exact pairwise_singleton _ _
  | cons context rest ih =>
    have hstart := h.start_le _ mem_cons_self
    have hcontext := hcontexts _ mem_cons_self
    have hrest : ∀ i ∈ rest, i.1 < matched :=
      fun i hi => hcontexts i (mem_cons_of_mem _ hi)
    refine pairwise_cons.mpr ⟨fun r hr => ?_, ih h.tail hrest⟩
    have hbounds := pieces_bounds h.tail hcontext hrest r hr
    unfold EndsBefore
    simp only
    omega

namespace Placement

/-- The replacements of a placed chunk, before they are sorted. -/
def replacements (p : Placement) : List Replacement :=
  if p.chunk.oldLines = [] then [(p.start, 0, p.chunk.newLines)]
  else
    (pieces p.start p.matched p.newSlice 0 0
      (activeContexts p.matched p.newSlice.length p.chunk.contextLineIndices)).filter isChange

end Placement

theorem UpdateFileChunk.Tracked.contextsFrom (h : chunk.Tracked) :
    ContextsFrom 0 0 chunk.contextLineIndices :=
  ⟨h.increasing, fun _ _ => ⟨Nat.zero_le _, Nat.zero_le _⟩⟩

section

variable {p : Placement} (htracked : p.chunk.Tracked)
include htracked

theorem replacements_bounds :
    ∀ r ∈ p.replacements, p.start ≤ r.1 ∧ r.1 + r.2.1 ≤ p.start + p.matched := by
  intro r hr
  unfold Placement.replacements at hr
  split at hr
  · obtain rfl := mem_singleton.mp hr
    simp only
    omega
  · exact pieces_bounds (htracked.contextsFrom.active _ _) (Nat.zero_le _)
      (fun i hi => (activeContexts_bounds i hi).1) r (mem_of_mem_filter hr)

theorem replacements_ordered : p.replacements.Pairwise EndsBefore := by
  unfold Placement.replacements
  split
  · exact pairwise_singleton _ _
  · exact (pieces_ordered (htracked.contextsFrom.active _ _)
      fun i hi => (activeContexts_bounds i hi).1).filter _

end

/-! ## All chunks -/

theorem seekContext_of_afterContext_eq_none (path : Str)
    (h : afterContext lines cursor chunk = none) :
    ∃ message, seekContext lines path cursor chunk = .error (.computeReplacements message) := by
  unfold afterContext at h
  unfold seekContext
  cases hcontext : chunk.changeContext with
  | none =>
      rw [hcontext] at h
      cases h
  | some ctxLine =>
      simp only [hcontext, Option.map_eq_none_iff] at h
      simp only [h]
      exact ⟨_, rfl⟩

theorem seekContext_of_afterContext (path : Str)
    (h : afterContext lines cursor chunk = some searchStart) :
    seekContext lines path cursor chunk = .ok searchStart := by
  unfold afterContext at h
  unfold seekContext
  cases hcontext : chunk.changeContext with
  | none =>
      rw [hcontext] at h
      cases h
      rfl
  | some ctxLine =>
      rw [hcontext] at h
      obtain ⟨i, hi, rfl⟩ := Option.map_eq_some_iff.mp h
      simp only [hi]

theorem locateChunk_eq (hold : chunk.oldLines ≠ []) :
    locateChunk lines searchStart chunk = (matchedRegion lines searchStart chunk).map fun region =>
        (region.1, chunk.oldLines.take region.2,
          (Placement.mk chunk searchStart region.1 region.2).newSlice) := by
  unfold locateChunk matchedRegion
  rw [if_neg hold]
  cases hseek : seekSequence lines chunk.oldLines searchStart chunk.isEndOfFile with
  | some start => simp [Placement.newSlice]
  | none =>
    have hpos : 0 < chunk.oldLines.length := length_pos_iff.mpr hold
    have hne : chunk.oldLines.length - 1 ≠ chunk.oldLines.length := by omega
    by_cases hlast : chunk.oldLines.getLast? = some []
    · simp only [hlast, if_true, Option.map_map, Function.comp_def, Placement.newSlice,
        if_neg hne, dropLast_eq_take]
    · simp only [hlast, if_false, Option.map_none]

variable {path : Str}

/-- The round of a chunk with old lines. -/
theorem computeChunk_eq (hold : chunk.oldLines ≠ []) :
    computeChunk lines path cursor chunk =
      (seekContext lines path cursor chunk).bind fun searchStart =>
        match locateChunk lines searchStart chunk with
        | some (start, pattern, newSlice) =>
          match chunkReplacements start pattern newSlice 0 0 chunk.contextLineIndices with
          | some replacements => .ok (replacements, start + pattern.length)
          | none => .error .panicked
        | none =>
          .error (.computeReplacements
            ("Failed to find expected lines in ".toList ++ path ++ ":\n".toList ++
              join ['\n'] chunk.oldLines)) := by
  have hempty : chunk.oldLines.isEmpty = false := by simpa using hold
  unfold computeChunk
  rw [hempty]
  rfl

variable {replacements : List Replacement}

/-- The round of a chunk that is placed. -/
theorem computeChunk_of_place {p : Placement} (hcursor : cursor ≤ lines.length)
    (htracked : chunk.Tracked) (h : place lines cursor chunk = some p) :
    computeChunk lines path cursor chunk = .ok (p.replacements, p.next) := by
  obtain ⟨hchunk, hp⟩ := placed_of_place hcursor h
  obtain ⟨searchStart, hsearch, h⟩ := Option.bind_eq_some_iff.mp h
  obtain ⟨⟨start, count⟩, hregion, rfl⟩ := Option.map_eq_some_iff.mp h
  by_cases hold : chunk.oldLines = []
  · have hstart : start = lines.length := (hp.addition hold).1
    subst hstart
    unfold computeChunk
    rw [seekContext_of_afterContext path hsearch]
    simp only [Placement.replacements, Placement.next, hold]
    rfl
  · have hlength : (chunk.oldLines.take count).length = count := by
      have hmatched := hp.matched_eq
      simp only at hmatched
      rw [length_take]
      omega
    have hlocate : locateChunk lines searchStart chunk =
        some (start, chunk.oldLines.take count,
          (Placement.mk chunk searchStart start count).newSlice) := by
      rw [locateChunk_eq hold, hregion]
      rfl
    have hreplacements : chunkReplacements start (chunk.oldLines.take count)
        (Placement.mk chunk searchStart start count).newSlice 0 0 chunk.contextLineIndices =
          some (Placement.mk chunk searchStart start count).replacements := by
      rw [chunkReplacements_eq htracked.contextsFrom (Nat.zero_le _) (Nat.zero_le _), hlength]
      simp only [Placement.replacements, if_neg hold]
    rw [computeChunk_eq hold, seekContext_of_afterContext path hsearch]
    simp only [Except.bind, hlocate, hreplacements, hlength, Placement.next, if_neg hold]

/-- A chunk that cannot be placed is reported with a message. -/
theorem computeChunk_of_place_eq_none (path : Str) (h : place lines cursor chunk = none) :
    ∃ message, computeChunk lines path cursor chunk = .error (.computeReplacements message) := by
  cases hsearch : afterContext lines cursor chunk with
  | none =>
    obtain ⟨message, hmessage⟩ := seekContext_of_afterContext_eq_none path hsearch
    refine ⟨message, ?_⟩
    unfold computeChunk
    rw [hmessage]
    rfl
  | some searchStart =>
    have hregion : matchedRegion lines searchStart chunk = none := by
      simpa [place, hsearch] using h
    have hold : chunk.oldLines ≠ [] := by
      intro hnil
      simp [matchedRegion, hnil] at hregion
    have hlocate : locateChunk lines searchStart chunk = none := by
      rw [locateChunk_eq hold, hregion]
      rfl
    rw [computeChunk_eq hold, seekContext_of_afterContext path hsearch]
    simp only [Except.bind, hlocate]
    exact ⟨_, rfl⟩

theorem computeChunks_cons (lines : List Str) (path : Str) (cursor : ℕ) (chunk : UpdateFileChunk)
    (rest : List UpdateFileChunk) :
    computeChunks lines path cursor (chunk :: rest) =
      (computeChunk lines path cursor chunk).bind fun round =>
        (computeChunks lines path round.2 rest).bind fun later => .ok (round.1 ++ later) := rfl

variable {chunks : List UpdateFileChunk}

/-- The replacements of chunks that are all placed. -/
theorem computeChunks_of_placements {ps : List Placement} (hcursor : cursor ≤ lines.length)
    (htracked : ∀ chunk ∈ chunks, chunk.Tracked) (h : placements lines cursor chunks = some ps) :
    computeChunks lines path cursor chunks = .ok (ps.flatMap Placement.replacements) := by
  induction chunks generalizing cursor ps with
  | nil =>
    cases h
    rfl
  | cons chunk rest ih =>
    obtain ⟨p, hplace, h⟩ := Option.bind_eq_some_iff.mp h
    obtain ⟨later, hlater, rfl⟩ := Option.map_eq_some_iff.mp h
    have hnext := (placed_of_place hcursor hplace).2.next_le.2
    have hrest := ih hnext (fun other hother => htracked other (mem_cons_of_mem _ hother)) hlater
    rw [computeChunks_cons, computeChunk_of_place hcursor (htracked chunk mem_cons_self) hplace]
    simp only [Except.bind, hrest, flatMap_cons]

theorem computeChunks_of_placements_eq_none (path : Str) (hcursor : cursor ≤ lines.length)
    (htracked : ∀ chunk ∈ chunks, chunk.Tracked) (h : placements lines cursor chunks = none) :
    ∃ message, computeChunks lines path cursor chunks = .error (.computeReplacements message) := by
  induction chunks generalizing cursor with
  | nil => cases h
  | cons chunk rest ih =>
    rw [computeChunks_cons]
    cases hplace : place lines cursor chunk with
    | none =>
      obtain ⟨message, hmessage⟩ := computeChunk_of_place_eq_none path hplace
      exact ⟨message, by rw [hmessage]; rfl⟩
    | some p =>
      have hlater : placements lines p.next rest = none := by
        simpa [placements, hplace] using h
      have hnext := (placed_of_place hcursor hplace).2.next_le.2
      obtain ⟨message, hmessage⟩ := ih hnext
        (fun other hother => htracked other (mem_cons_of_mem _ hother)) hlater
      rw [computeChunk_of_place hcursor (htracked chunk mem_cons_self) hplace]
      exact ⟨message, by simp only [Except.bind, hmessage]⟩

/-- The chunks are placed, and one after the other, except that a chunk without old lines
goes to the end at once. -/
theorem placed_of_placements {ps : List Placement} (hcursor : cursor ≤ lines.length)
    (h : placements lines cursor chunks = some ps) :
    ps.map Placement.chunk = chunks ∧
      (∀ p ∈ ps, ∃ from', cursor ≤ from' ∧ Placed lines.length from' p) ∧
      ps.Pairwise fun p q =>
        p.start + p.matched ≤ q.start ∨ p.start = lines.length ∧ p.matched = 0 := by
  induction chunks generalizing cursor ps with
  | nil =>
    cases h
    exact ⟨rfl, fun _ hp => absurd hp not_mem_nil, List.Pairwise.nil⟩
  | cons chunk rest ih =>
    obtain ⟨p, hplace, h⟩ := Option.bind_eq_some_iff.mp h
    obtain ⟨later, hlater, rfl⟩ := Option.map_eq_some_iff.mp h
    obtain ⟨hchunk, hp⟩ := placed_of_place hcursor hplace
    obtain ⟨hchunks, hplaced, hordered⟩ := ih hp.next_le.2 hlater
    refine ⟨by rw [map_cons, hchunk, hchunks], ?_, ?_⟩
    · intro q hq
      rcases mem_cons.mp hq with rfl | hq
      · exact ⟨cursor, le_rfl, hp⟩
      · obtain ⟨from', hfrom, hq⟩ := hplaced q hq
        exact ⟨from', hp.next_le.1.trans hfrom, hq⟩
    · refine pairwise_cons.mpr ⟨fun q hq => ?_, hordered⟩
      obtain ⟨from', hfrom, hq⟩ := hplaced q hq
      by_cases hold : p.chunk.oldLines = []
      · exact .inr (hp.addition hold)
      · left
        rw [Placement.next, if_neg hold] at hfrom
        by_cases holdq : q.chunk.oldLines = []
        · rw [(hq.addition holdq).1]
          exact hp.end_le
        · exact hfrom.trans (hq.cursor_le.trans (hq.searchStart_le_start holdq))

/-! ## Order and bounds -/

/-- A replacement made from the front, its new lines with the preferred ending. -/
def Replacement.toEdit (preferredEnding : LineEnding) (r : Replacement) : Edit SourceLine :=
  ⟨r.1, r.2.1, r.2.2.map fun text => ⟨text, some preferredEnding⟩⟩

theorem replaceLines_eq_rebuild (preferredEnding : LineEnding) (sourceIndex : ℕ)
    (sourceLines : List SourceLine) (replacements : List Replacement) :
    replaceLines preferredEnding sourceIndex sourceLines replacements =
      Edit.rebuild sourceIndex sourceLines (replacements.map (toEdit preferredEnding)) := by
  induction replacements generalizing sourceIndex sourceLines with
  | nil => rfl
  | cons r rest ih =>
    simp only [replaceLines, map_cons, Edit.rebuild, ih, Option.map_eq_bind]
    rfl

/-- What one pass over the placed chunks gives, before it is sorted: the replacements are
in order, except that those at the end of the file may come early. -/
theorem flatMap_replacements_ordered {ps : List Placement}
    (htracked : ∀ chunk ∈ chunks, chunk.Tracked) (h : placements lines 0 chunks = some ps) :
    (∀ r ∈ ps.flatMap Placement.replacements, r.1 + r.2.1 ≤ lines.length) ∧
      (ps.flatMap Placement.replacements).Pairwise fun r r' =>
        r.EndsBefore r' ∨ r.1 = lines.length ∧ r.2.1 = 0 := by
  obtain ⟨hchunks, hplaced, hordered⟩ := placed_of_placements (Nat.zero_le _) h
  have htracked : ∀ p ∈ ps, p.chunk.Tracked := by
    intro p hp
    apply htracked
    rw [← hchunks]
    exact mem_map_of_mem hp
  constructor
  · intro r hr
    obtain ⟨p, hp, hr⟩ := mem_flatMap.mp hr
    obtain ⟨_, _, hplace⟩ := hplaced p hp
    exact (replacements_bounds (htracked p hp) r hr).2.trans hplace.end_le
  · refine pairwise_flatMap.mpr ⟨fun p hp => ?_, ?_⟩
    · exact (replacements_ordered (htracked p hp)).imp fun hends => Or.inl hends
    · refine hordered.imp_of_mem fun {p q} hp hq hpq r hr r' hr' => ?_
      have hbounds := replacements_bounds (htracked p hp) r hr
      have hbounds' := replacements_bounds (htracked q hq) r' hr'
      unfold EndsBefore
      omega

/-- Sorting puts them in order. -/
theorem insertionSort_endsBefore {length : ℕ} (hbounds : ∀ r ∈ replacements, r.1 + r.2.1 ≤ length)
    (h : replacements.Pairwise fun r r' => r.EndsBefore r' ∨ r.1 = length ∧ r.2.1 = 0) :
    (replacements.insertionSort fun a b => a.1 ≤ b.1).Pairwise EndsBefore := by
  have hsorted : (replacements.insertionSort fun a b => a.1 ≤ b.1).Pairwise fun a b => a.1 ≤ b.1 :=
    List.pairwise_insertionSort _ _
  have hmoved := Codex.pairwise_insertionSort Prod.fst h
  refine (hsorted.and hmoved).imp_of_mem fun {r r'} hr _ ⟨hle, hmoved⟩ => ?_
  have hbound := hbounds r ((mem_insertionSort _).mp hr)
  unfold MovedUp EndsBefore at hmoved
  unfold EndsBefore
  omega

theorem exists_placements_of_computeReplacements (htracked : ∀ chunk ∈ chunks, chunk.Tracked)
    (h : computeReplacements lines path chunks = .ok replacements) :
    ∃ ps, placements lines 0 chunks = some ps ∧
      replacements = (ps.flatMap Placement.replacements).insertionSort fun a b => a.1 ≤ b.1 := by
  obtain ⟨unsorted, hcompute, hsort⟩ := bind_eq_ok h
  cases hplace : placements lines 0 chunks with
  | none =>
    obtain ⟨message, hmessage⟩ :=
      computeChunks_of_placements_eq_none path (Nat.zero_le _) htracked hplace
    rw [hmessage] at hcompute
    cases hcompute
  | some ps =>
    rw [computeChunks_of_placements (Nat.zero_le _) htracked hplace] at hcompute
    cases hcompute
    cases hsort
    exact ⟨ps, rfl, rfl⟩

/-- What replacements put in before a source line, in their order. -/
def insertedTexts (replacements : List Replacement) (i : ℕ) : List Str :=
  (replacements.filter fun r => r.1 == i).flatMap fun r => r.2.2

/-- The source line is in the range of a replacement. -/
def removesLine (replacements : List Replacement) (i : ℕ) : Bool :=
  replacements.any fun r => r.1 ≤ i && i < r.1 + r.2.1

/-- The source with lines put in and removed, and every line terminated. -/
def SourceFile.spliced (file : SourceFile) (inserted : ℕ → List Str) (removed : ℕ → Bool) :
    SourceFile :=
  { file with
    lines := (splice (fun i => (inserted i).map fun text => ⟨text, some file.preferredEnding⟩) removed
      0 file.lines).map fun line =>
        { line with ending := some (line.ending.getD file.preferredEnding) } }

/-- Replacements in order do all they say. -/
theorem applyReplacements_eq {file : SourceFile} (hordered : replacements.Pairwise EndsBefore)
    (hbounds : ∀ r ∈ replacements, r.1 + r.2.1 ≤ file.lines.length) :
    file.applyReplacements replacements =
      some (file.spliced (insertedTexts replacements) (removesLine replacements)) := by
  have hto : ∀ edit ∈ replacements.map (toEdit file.preferredEnding),
      edit.start + edit.removed ≤ 0 + file.lines.length := by
    intro edit hedit
    obtain ⟨r, hr, rfl⟩ := mem_map.mp hedit
    rw [Nat.zero_add]
    exact hbounds r hr
  have hinserted : Edit.insertedAt (replacements.map (toEdit file.preferredEnding)) =
      fun i => (insertedTexts replacements i).map fun text => ⟨text, some file.preferredEnding⟩ := by
    funext i
    rw [Edit.insertedAt, insertedTexts, filter_map, flatMap_map, map_flatMap]
    rfl
  have hremoved : Edit.removedAt (replacements.map (toEdit file.preferredEnding)) =
      removesLine replacements := by
    funext i
    rw [Edit.removedAt, any_map]
    rfl
  unfold SourceFile.applyReplacements
  rw [replaceLines_eq_rebuild,
    Edit.rebuild_eq (pairwise_map.mpr hordered) (fun _ _ => Nat.zero_le _) hto, hinserted,
    hremoved]
  rfl

/-- Sorting leaves what is put in where, and what is removed. -/
theorem insertedTexts_insertionSort (i : ℕ) :
    insertedTexts (replacements.insertionSort fun a b => a.1 ≤ b.1) i =
        insertedTexts replacements i ∧
      removesLine (replacements.insertionSort fun a b => a.1 ≤ b.1) i =
        removesLine replacements i := by
  constructor
  · rw [insertedTexts, filter_insertionSort Prod.fst i]
    rfl
  · exact (perm_insertionSort _ _).any_eq

/-- A blank line before an added one, marked with the end of the file. -/
def appendedChunk : UpdateFileChunk := ⟨none, [[]], [[], "foo".toList], [(0, 0)], true⟩

theorem parserProduced_appendedChunk : ParserProduced [appendedChunk] := by
  have hparse : (parsePatchText ("*** Begin Patch\n*** Update File: f\n@@\n \n+foo\n".toList ++
      "*** End of File\n*** End Patch".toList) .lenient).map ApplyPatchArgs.hunks =
      .ok [.updateFile ['f'] none [appendedChunk]] := by decide +kernel
  obtain ⟨args, hargs, hhunks⟩ := map_eq_ok hparse
  exact .parsed hargs (hhunks ▸ mem_cons_self)

/-- For chunks that the parser produced, the replacements are sorted by their starts, do not
overlap and are in bounds; no subtraction or slice of `compute_replacements` or
`apply_replacements` goes out of range. -/
theorem computeReplacements_in_order {lines : List Str} {path : Str}
    {chunks : List UpdateFileChunk} (hchunks : ParserProduced chunks) :
    computeReplacements lines path chunks ≠ .error .panicked ∧
      ∀ replacements, computeReplacements lines path chunks = .ok replacements →
        (replacements.Pairwise fun r r' => r.1 ≤ r'.1) ∧
        (replacements.Pairwise fun r r' => r.1 + r.2.1 ≤ r'.1) ∧
        (∀ r ∈ replacements, r.1 + r.2.1 ≤ lines.length) ∧
        ∀ file : SourceFile, file.lineTexts = lines →
          (file.applyReplacements replacements).isSome := by
  have htracked := hchunks.tracked
  constructor
  · intro hpanic
    cases hplace : placements lines 0 chunks with
    | none =>
      obtain ⟨message, hmessage⟩ :=
        computeChunks_of_placements_eq_none path (Nat.zero_le _) htracked hplace
      rw [computeReplacements, hmessage] at hpanic
      cases hpanic
    | some ps =>
      rw [computeReplacements,
        computeChunks_of_placements (Nat.zero_le _) htracked hplace] at hpanic
      cases hpanic
  · intro replacements h
    obtain ⟨ps, hplace, rfl⟩ := exists_placements_of_computeReplacements htracked h
    obtain ⟨hbounds, hordered⟩ := flatMap_replacements_ordered htracked hplace
    have hends := insertionSort_endsBefore hbounds hordered
    have hbounds' : ∀ r ∈ (ps.flatMap Placement.replacements).insertionSort
        (fun a b => a.1 ≤ b.1), r.1 + r.2.1 ≤ lines.length :=
      fun r hr => hbounds r ((mem_insertionSort _).mp hr)
    refine ⟨List.pairwise_insertionSort _ _, hends, hbounds', fun file hfile => ?_⟩
    rw [applyReplacements_eq hends fun r hr => ?_]
    · rfl
    have hlength : file.lines.length = lines.length := by
      rw [← hfile, SourceFile.lineTexts, length_map]
    rw [hlength]
    exact hbounds' r hr

/-- A line is replaced and one added, and another is added at the end of the file. -/
theorem three_edits_in_order :
    let chunks : List UpdateFileChunk := [⟨none, [['a'], ['b'], ['c']],
      [['a'], ['B'], ['c'], ['d']], [(0, 0), (2, 2)], false⟩, appendedChunk]
    let replacements : List Replacement :=
      [(1, 1, [['B']]), (3, 0, [['d']]), (4, 0, ["foo".toList])]
    ParserProduced chunks ∧
      computeReplacements [['a'], ['b'], ['c'], []] [] chunks = .ok replacements ∧
      (replacements.Pairwise fun r r' => r.1 ≤ r'.1) ∧
      (replacements.Pairwise fun r r' => r.1 + r.2.1 ≤ r'.1) ∧
      (∀ r ∈ replacements, r.1 + r.2.1 ≤ 4) ∧
      ((SourceFile.parse "a\nb\nc\n\n".toList).applyReplacements replacements).isSome := by
  intro chunks replacements
  have hparse : (parsePatchText ("*** Begin Patch\n*** Update File: f\n@@\n a\n-b\n+B\n".toList ++
      " c\n+d\n@@\n \n+foo\n*** End of File\n*** End Patch".toList) .lenient).map
        ApplyPatchArgs.hunks =
      .ok [.updateFile ['f'] none chunks] := by decide +kernel
  obtain ⟨args, hargs, hhunks⟩ := map_eq_ok hparse
  have hchunks : ParserProduced chunks := .parsed hargs (hhunks ▸ mem_cons_self)
  have hok : computeReplacements [['a'], ['b'], ['c'], []] [] chunks = .ok replacements := by
    decide +kernel
  obtain ⟨hstarts, hends, hbounds, happlied⟩ := (computeReplacements_in_order hchunks).2 _ hok
  exact ⟨hchunks, hok, hstarts, hends, hbounds, happlied _ (by decide +kernel)⟩

/-! ## The end of the file -/

/-- The file ends with a blank line. -/
def EndsBlank (lines : List Str) : Prop := ∃ line, lines.getLast? = some line ∧ trim line = []

theorem findWindow_last (view : Str → Str) (init : List Str) (last : Str) :
    findWindow view (init ++ [last]) [[]] init.length = none ↔ view last ≠ view [] := by
  simp [findWindow]

/-- An empty line is not found at the end if the search begins behind it, or the last line is not
blank. -/
theorem seekSequence_blank_eq_none :
    seekSequence lines [[]] searchStart true = none ↔
      lines.length ≤ searchStart ∨ ¬ EndsBlank lines := by
  by_cases hstart : lines.length ≤ searchStart
  · simp only [hstart, true_or, iff_true]
    refine Option.eq_none_iff_forall_ne_some.mpr fun i hi => ?_
    have hfound := foundAt_of_seekSequence (cons_ne_nil _ _) hi
    have hlength := hfound.le_length
    rw [length_singleton] at hlength
    exact absurd hfound.start_le (by omega)
  · cases lines using List.reverseRecOn with
    | nil => exact absurd (Nat.zero_le _) hstart
    | append_singleton init last =>
      have hends : EndsBlank (init ++ [last]) ↔ trim last = [] := by simp [EndsBlank]
      have hmax : max ((init ++ [last]).length - [([] : Str)].length) searchStart =
          init.length := by
        rw [length_append, length_singleton] at hstart ⊢
        simp only [length_singleton]
        omega
      -- all four passes look at the last line
      simp only [hends, hstart, false_or, seekSequence, isEmpty_cons, Bool.false_eq_true,
        if_false, if_true, hmax]
      rw [if_neg (by simp)]
      simp only [Option.orElse_eq_none, findWindow_last]
      constructor
      · rintro ⟨-, -, htrim, -⟩
        exact htrim
      · intro htrim
        refine ⟨fun hnil => htrim ?_, fun hnil => htrim ?_, htrim, fun hnil => htrim ?_⟩
        · rw [show last = [] from hnil]
          rfl
        · exact trim_eq_nil_iff_trimEnd.mpr hnil
        · exact map_eq_nil_iff.mp hnil

/-- A chunk marked with the end of the file ends there, unless its old lines are one empty line
that is not found and does not stand for the end. -/
theorem end_eq_length_iff {p : Placement} (hcursor : cursor ≤ lines.length)
    (h : place lines cursor chunk = some p) (heof : chunk.isEndOfFile = true)
    (hold : chunk.oldLines ≠ []) :
    p.start + p.matched = lines.length ↔
      (chunk.oldLines = [[]] → EndsBlank lines ∨ p.searchStart = lines.length) := by
  have hto := (placed_of_place hcursor h).2.searchStart_le
  obtain ⟨searchStart, -, h⟩ := Option.bind_eq_some_iff.mp h
  obtain ⟨⟨start, count⟩, hregion, rfl⟩ := Option.map_eq_some_iff.mp h
  unfold matchedRegion at hregion
  rw [if_neg hold, heof] at hregion
  simp only at hto ⊢
  cases hseek : seekSequence lines chunk.oldLines searchStart true with
  | some found =>
    rw [hseek] at hregion
    cases hregion
    refine iff_of_true ((foundAt_of_seekSequence hold hseek).at_end rfl) fun hblank => ?_
    by_contra hnot
    rw [hblank, seekSequence_blank_eq_none.mpr (.inr fun hends => hnot (.inl hends))] at hseek
    cases hseek
  | none =>
    rw [hseek] at hregion
    simp only at hregion
    split at hregion
    · next hlast =>
        obtain ⟨found, hfound, hpair⟩ := Option.map_eq_some_iff.mp hregion
        cases hpair
        by_cases hpattern : chunk.oldLines.dropLast = []
        · have hblank : chunk.oldLines = [[]] := by
            rw [← dropLast_append_getLast? [] hlast, hpattern]
            rfl
          rw [hpattern] at hfound
          cases hfound
          rw [hblank, seekSequence_blank_eq_none] at hseek
          simp only [hblank, length_singleton, Nat.sub_self, Nat.add_zero, true_imp_iff]
          rcases hseek with hle | hnot
          · exact iff_of_true (by omega) (.inr (by omega))
          · simp only [hnot, false_or]
        · have hend := (foundAt_of_seekSequence hpattern hfound).at_end rfl
          rw [length_dropLast] at hend
          refine iff_of_true hend fun hblank => absurd ?_ hpattern
          rw [hblank]
          rfl
    · cases hregion

theorem exists_place_of_mem_placements {ps : List Placement} {p : Placement}
    (hcursor : cursor ≤ lines.length) (h : placements lines cursor chunks = some ps)
    (hp : p ∈ ps) : ∃ cursor ≤ lines.length, place lines cursor p.chunk = some p := by
  induction chunks generalizing cursor ps with
  | nil =>
    cases h
    cases hp
  | cons chunk rest ih =>
    obtain ⟨first, hplace, h⟩ := Option.bind_eq_some_iff.mp h
    obtain ⟨later, hlater, rfl⟩ := Option.map_eq_some_iff.mp h
    obtain ⟨hchunk, hfirst⟩ := placed_of_place hcursor hplace
    rcases mem_cons.mp hp with rfl | hp
    · exact ⟨cursor, hcursor, by rw [hchunk, hplace]⟩
    · exact ih hfirst.next_le.2 hlater hp

/-- A successful update places its chunks, and those marked with the end of the file end there if
and only if, wherever such a chunk has one empty line as its old lines, the file ends with a blank
line or the search had come to its end. -/
theorem endOfFile_chunks_at_end_iff {lines : List Str} {path : Str}
    {chunks : List UpdateFileChunk} {replacements : List Replacement}
    (hchunks : ParserProduced chunks)
    (h : computeReplacements lines path chunks = .ok replacements) :
    ∃ ps, placements lines 0 chunks = some ps ∧
      replacements = (ps.flatMap Placement.replacements).insertionSort (fun a b => a.1 ≤ b.1) ∧
      ((∀ p ∈ ps, p.chunk.isEndOfFile = true → p.chunk.oldLines ≠ [] →
          p.start + p.matched = lines.length) ↔
        ∀ p ∈ ps, p.chunk.isEndOfFile = true → p.chunk.oldLines = [[]] →
          EndsBlank lines ∨ p.searchStart = lines.length) := by
  obtain ⟨ps, hplace, hreplacements⟩ := exists_placements_of_computeReplacements hchunks.tracked h
  refine ⟨ps, hplace, hreplacements, forall₂_congr fun p hp => ?_⟩
  obtain ⟨cursor, hcursor, hp⟩ := exists_place_of_mem_placements (Nat.zero_le _) hplace hp
  refine forall_congr' fun heof => ⟨fun hend hblank => ?_, fun hcondition hold => ?_⟩
  · have hold : p.chunk.oldLines ≠ [] := by
      rw [hblank]
      exact cons_ne_nil _ _
    exact (end_eq_length_iff hcursor hp heof hold).mp (hend hold) hblank
  · exact (end_eq_length_iff hcursor hp heof hold).mpr hcondition

/-- In a file that does not end with a blank line the chunk goes to its beginning, where the search
for an empty pattern begins. -/
theorem end_of_file_chunk_at_beginning :
    ParserProduced [appendedChunk] ∧ appendedChunk.isEndOfFile = true ∧
      placements ["a".toList, "b".toList] 0 [appendedChunk] = some [⟨appendedChunk, 0, 0, 0⟩] ∧
      computeReplacements ["a".toList, "b".toList] [] [appendedChunk] =
        .ok [(0, 0, [[], "foo".toList])] ∧
      newContents [] [appendedChunk] "a\nb\n".toList = .ok "\nfoo\na\nb\n".toList :=
  ⟨parserProduced_appendedChunk, rfl, by decide +kernel, by decide +kernel, by decide +kernel⟩

/-- In a file that ends with a blank line it goes to the end. -/
theorem end_of_file_chunk_at_end :
    computeReplacements ["a".toList, []] [] [appendedChunk] = .ok [(2, 0, ["foo".toList])] ∧
      ∀ ps, placements ["a".toList, []] 0 [appendedChunk] = some ps →
        ∀ p ∈ ps, p.start + p.matched = 2 := by
  have hok : computeReplacements ["a".toList, []] [] [appendedChunk] =
      .ok [(2, 0, ["foo".toList])] := by decide +kernel
  obtain ⟨found, hfound, -, hiff⟩ := endOfFile_chunks_at_end_iff parserProduced_appendedChunk hok
  have hplaced : placements ["a".toList, []] 0 [appendedChunk] = some [⟨appendedChunk, 0, 1, 1⟩] := by
    decide +kernel
  obtain rfl := Option.some_inj.mp (hfound.symm.trans hplaced)
  refine ⟨hok, fun ps hps p hp => ?_⟩
  obtain rfl := Option.some_inj.mp (hps.symm.trans hplaced)
  refine hiff.mpr (fun _ _ _ _ => .inl ⟨[], rfl, rfl⟩) p hp ?_ ?_
  · rw [mem_singleton.mp hp]
    rfl
  · rw [mem_singleton.mp hp]
    exact cons_ne_nil _ _

end Codex.ApplyPatch
