import Codex.ApplyPatch.ParserRun

/-!
# The context lines of parsed chunks

A chunk records which of its lines were written as context by pairs of indices into its
old and new lines.  Every chunk the parser makes has these pairs in order, in range, and
at equal lines.
-/

namespace Codex.ApplyPatch

open StreamingPatchParser List

/-- The recorded context lines are in order and stand on both sides. -/
structure UpdateFileChunk.Tracked (chunk : UpdateFileChunk) : Prop where
  increasing : chunk.contextLineIndices.Pairwise fun i j => i.1 < j.1 ∧ i.2 < j.2
  equalLines : ∀ i ∈ chunk.contextLineIndices, ∃ line,
    chunk.oldLines[i.1]? = some line ∧ chunk.newLines[i.2]? = some line

/-- The chunk lists that the parser returns: for a whole patch text, or while a patch is
streamed and at its end. -/
inductive ParserProduced (chunks : List UpdateFileChunk) : Prop
  | parsed {patch path : Str} {mode : ParseMode} {args : ApplyPatchArgs}
      {movePath : Option Str} (h : parsePatchText patch mode = .ok args)
      (hmem : .updateFile path movePath chunks ∈ args.hunks) : ParserProduced chunks
  | pushed {deltas : List Str} {parser : StreamingPatchParser} {path : Str}
      {movePath : Option Str} (h : deltas.foldlM pushDelta new = .ok parser)
      (hmem : .updateFile path movePath chunks ∈ parser.hunks) : ParserProduced chunks
  | finished {deltas : List Str} {parser : StreamingPatchParser} {path : Str}
      {movePath : Option Str} (h : stream deltas = .ok parser)
      (hmem : .updateFile path movePath chunks ∈ parser.hunks) : ParserProduced chunks

/-! ## One line -/

namespace UpdateFileChunk.Tracked

theorem empty (changeContext : Option Str) :
    UpdateFileChunk.Tracked { UpdateFileChunk.empty with changeContext } :=
  ⟨List.Pairwise.nil, fun _ hi => absurd hi not_mem_nil⟩

variable {chunk : UpdateFileChunk} (h : chunk.Tracked)
include h

theorem lt_length {i : ℕ × ℕ} (hi : i ∈ chunk.contextLineIndices) :
    i.1 < chunk.oldLines.length ∧ i.2 < chunk.newLines.length := by
  obtain ⟨line, hold, hnew⟩ := h.equalLines i hi
  exact ⟨(List.getElem?_eq_some_iff.mp hold).1, (List.getElem?_eq_some_iff.mp hnew).1⟩

/-- Lines appended on either side leave the recorded ones where they are. -/
theorem equalLines_append (old added : List Str) {i : ℕ × ℕ} (hi : i ∈ chunk.contextLineIndices) :
    ∃ line, (chunk.oldLines ++ old)[i.1]? = some line ∧
      (chunk.newLines ++ added)[i.2]? = some line := by
  obtain ⟨line, hold, hnew⟩ := h.equalLines i hi
  obtain ⟨holdLt, hnewLt⟩ := h.lt_length hi
  exact ⟨line, by rw [getElem?_append_left holdLt, hold], by rw [getElem?_append_left hnewLt, hnew]⟩

theorem pushContextLine (line : Str) : (chunk.pushContextLine line).Tracked := by
  constructor
  · refine pairwise_append.mpr ⟨h.increasing, pairwise_singleton _ _, ?_⟩
    rintro i hi j hj
    rw [mem_singleton] at hj
    subst hj
    exact h.lt_length hi
  · intro i hi
    rcases mem_append.mp hi with hi | hi
    · exact h.equalLines_append [line] [line] hi
    · rw [mem_singleton] at hi
      subst hi
      exact ⟨line, by simp [UpdateFileChunk.pushContextLine],
        by simp [UpdateFileChunk.pushContextLine]⟩

theorem of_chunkLine {line : Str} {f : UpdateFileChunk → UpdateFileChunk}
    (hline : chunkLine line = some f) : (f chunk).Tracked := by
  unfold chunkLine at hline
  split at hline
  all_goals cases hline
  · exact h.pushContextLine []
  · next text => exact h.pushContextLine text
  · next text =>
      refine ⟨h.increasing, fun i hi => ?_⟩
      have hlines := h.equalLines_append [] [text] hi
      rwa [append_nil] at hlines
  · next text =>
      refine ⟨h.increasing, fun i hi => ?_⟩
      have hlines := h.equalLines_append [text] [] hi
      rwa [append_nil] at hlines

end UpdateFileChunk.Tracked

variable {chunks : List UpdateFileChunk}

theorem tracked_modifyLastChunk {f : UpdateFileChunk → UpdateFileChunk}
    (hchunks : ∀ chunk ∈ chunks, chunk.Tracked)
    (hf : ∀ chunk : UpdateFileChunk, chunk.Tracked → (f chunk).Tracked) :
    ∀ chunk ∈ modifyLastChunk chunks f, chunk.Tracked := by
  intro chunk hchunk
  unfold modifyLastChunk at hchunk
  split at hchunk
  · next last hlast =>
      rcases mem_append.mp hchunk with hmem | hmem
      · exact hchunks chunk (dropLast_subset _ hmem)
      · rw [mem_singleton.mp hmem]
        exact hf last (hchunks last (mem_of_getLast? hlast))
  · rw [mem_singleton.mp hchunk]
    exact hf _ (UpdateFileChunk.Tracked.empty none)

theorem UpdateStep.tracked {line : Str} {movePath movePath' : Option Str}
    {chunks' : List UpdateFileChunk} (h : UpdateStep line movePath chunks movePath' chunks')
    (hchunks : ∀ chunk ∈ chunks, chunk.Tracked) : ∀ chunk ∈ chunks', chunk.Tracked := by
  cases h with
  | skip => exact hchunks
  | moveTo => exact hchunks
  | emptyContext =>
    exact forall_mem_append.mpr
      ⟨hchunks, forall_mem_singleton.mpr (UpdateFileChunk.Tracked.empty none)⟩
  | context =>
    exact forall_mem_append.mpr
      ⟨hchunks, forall_mem_singleton.mpr (UpdateFileChunk.Tracked.empty _)⟩
  | eof =>
    unfold markEof
    split
    · exact hchunks
    · exact tracked_modifyLastChunk hchunks fun chunk hchunk =>
        ⟨hchunk.increasing, hchunk.equalLines⟩
  | line heof hline =>
    exact tracked_modifyLastChunk hchunks fun chunk hchunk => hchunk.of_chunkLine hline

/-! ## Whole texts -/

/-- All chunks of the hunks read so far. -/
def HunksTracked (hunks : List Hunk) : Prop :=
  ∀ path movePath chunks, .updateFile path movePath chunks ∈ hunks → ∀ chunk ∈ chunks, chunk.Tracked

variable {parser : StreamingPatchParser}

theorem HunksTracked.setLastHunk {hunk : Hunk} (h : HunksTracked parser.hunks)
    (hhunk : HunksTracked [hunk]) : HunksTracked (parser.setLastHunk hunk).hunks := by
  intro path movePath chunks hmem
  rcases mem_append.mp hmem with hmem | hmem
  · exact h path movePath chunks (dropLast_subset _ hmem)
  · exact hhunk path movePath chunks hmem

theorem Header.chunks_eq_nil {lineNumber : ℕ} {text : Str} {hunk : Hunk}
    {mode : StreamingParserMode} (h : Header lineNumber text hunk mode) {path : Str}
    {movePath : Option Str} (hunk_eq : .updateFile path movePath chunks = hunk) : chunks = [] := by
  cases h with
  | addFile => cases hunk_eq
  | deleteFile => cases hunk_eq
  | updateFile =>
    cases hunk_eq
    rfl

variable {parser' : StreamingPatchParser}

theorem Step.tracked {line : Str} (h : Step parser line parser')
    (hhunks : HunksTracked parser.hunks) : HunksTracked parser'.hunks := by
  cases h with
  | beginPatch => exact hhunks
  | handled hbody h =>
    cases h with
    | environmentId => exact hhunks
    | endPatch => exact hhunks
    | hunk hheader =>
      intro path movePath chunks hmem
      rcases mem_append.mp hmem with hmem | hmem
      · exact hhunks path movePath chunks hmem
      · -- a header begins an update without chunks
        rw [hheader.chunks_eq_nil (mem_singleton.mp hmem)]
        exact fun _ hchunk => absurd hchunk not_mem_nil
  | addLine =>
    refine hhunks.setLastHunk fun path movePath chunks hmem => ?_
    cases mem_singleton.mp hmem
  | update hmode hlast h =>
    refine hhunks.setLastHunk fun path movePath chunks hmem => ?_
    cases mem_singleton.mp hmem
    exact h.tracked (hhunks _ _ _ (mem_of_getLast? hlast))
  | blank => exact hhunks

theorem tracked_of_pushChar {c : Char} (hhunks : HunksTracked parser.hunks)
    (h : parser.pushChar c = .ok parser') : HunksTracked parser'.hunks := by
  unfold pushChar at h
  split at h
  · exact (processLine_eq_ok_iff.mp h).tracked hhunks
  · cases h
    exact hhunks

theorem tracked_of_pushDelta {text : Str} (h : new.pushDelta text = .ok parser) :
    HunksTracked parser.hunks :=
  foldlM_invariant (I := fun _ parser => HunksTracked parser.hunks)
    (fun _ _ _ hmem => absurd hmem not_mem_nil)
    (fun _ _ _ _ hhunks _ hchar => tracked_of_pushChar hhunks hchar) h

theorem tracked_of_finish (hhunks : HunksTracked parser.hunks) (h : parser.finish = .ok parser') :
    HunksTracked parser'.hunks := by
  obtain ⟨last, hlast, h⟩ := bind_eq_ok h
  split at h
  · cases h
    simp only [finishLastLine] at hlast
    split at hlast
    · cases hlast
      exact hhunks
    · split at hlast
      · obtain ⟨_, _, hlast⟩ := bind_eq_ok hlast
        cases hlast
        exact hhunks
      · exact (processLine_eq_ok_iff.mp hlast).tracked hhunks
  · cases h

theorem ParserProduced.tracked (h : ParserProduced chunks) : ∀ chunk ∈ chunks, chunk.Tracked := by
  cases h with
  | @parsed _ _ mode _ _ h hmem =>
    -- both modes go on with the lines they accept
    cases mode
    all_goals
      obtain ⟨patchLines, _, h⟩ := bind_eq_ok h
      obtain ⟨parser, hpush, h⟩ := bind_eq_ok h
      obtain ⟨finished, hfinish, h⟩ := bind_eq_ok h
      cases h
      exact tracked_of_finish (tracked_of_pushDelta hpush) hfinish _ _ _ hmem
  | pushed h hmem =>
    rw [foldlM_pushDelta] at h
    exact tracked_of_pushDelta h _ _ _ hmem
  | finished h hmem =>
    obtain ⟨parser, hpush, hfinish⟩ := bind_eq_ok h
    rw [foldlM_pushDelta] at hpush
    exact tracked_of_finish (tracked_of_pushDelta hpush) hfinish _ _ _ hmem

end Codex.ApplyPatch
