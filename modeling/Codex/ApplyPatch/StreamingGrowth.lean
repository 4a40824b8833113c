import Codex.ApplyPatch.ParserRun
import Codex.Lib.Growth

/-!
# What a streaming parse has returned stays

While a patch arrives, `push_delta` returns the hunks read so far after every delta.
A list returned later has the hunks of an earlier one: all but the last as they were,
and the last, which was still being written, extended.

What a line does to the hunks is read off `Step`; the rest is transitivity of growth.

The result is `pushDelta_hunks_grow`: one delta lets the hunks grow (`grows_of_pushDelta`), and
the deltas together are read as their text is (`foldlM_pushDelta`).
-/

namespace Codex.ApplyPatch

open StreamingPatchParser List

/-! ## Extending a hunk -/

/-- Lines were appended to the chunk, or its end of file was marked. -/
structure UpdateFileChunk.Extends (chunk chunk' : UpdateFileChunk) : Prop where
  changeContext : chunk'.changeContext = chunk.changeContext
  oldLines : chunk.oldLines <+: chunk'.oldLines
  newLines : chunk.newLines <+: chunk'.newLines
  contextLineIndices : chunk.contextLineIndices <+: chunk'.contextLineIndices
  isEndOfFile : chunk.isEndOfFile = true → chunk'.isEndOfFile = true

theorem UpdateFileChunk.Extends.refl (chunk : UpdateFileChunk) : chunk.Extends chunk :=
  ⟨rfl, prefix_rfl, prefix_rfl, prefix_rfl, id⟩

theorem UpdateFileChunk.Extends.trans {first second third : UpdateFileChunk}
    (h : first.Extends second) (h' : second.Extends third) : first.Extends third :=
  ⟨h'.changeContext.trans h.changeContext, h.oldLines.trans h'.oldLines,
    h.newLines.trans h'.newLines, h.contextLineIndices.trans h'.contextLineIndices,
    h'.isEndOfFile ∘ h.isEndOfFile⟩

/-- Text was appended to an added file; chunks were appended to an update, its last chunk
was extended, or its destination was set while it had no chunk. -/
inductive Hunk.Extends : Hunk → Hunk → Prop
  | addFile (path : Str) {contents contents' : Str} (hcontents : contents <+: contents') :
      Hunk.Extends (.addFile path contents) (.addFile path contents')
  | deleteFile (path : Str) : Hunk.Extends (.deleteFile path) (.deleteFile path)
  | updateFile (path : Str) {movePath movePath' : Option Str}
      {chunks chunks' : List UpdateFileChunk}
      (hmove : movePath' = movePath ∨ movePath = none ∧ chunks = [])
      (hchunks : Grows UpdateFileChunk.Extends chunks chunks') :
      Hunk.Extends (.updateFile path movePath chunks) (.updateFile path movePath' chunks')

theorem Hunk.Extends.refl (hunk : Hunk) : hunk.Extends hunk := by
  cases hunk with
  | addFile path contents => exact .addFile path prefix_rfl
  | deleteFile path => exact .deleteFile path
  | updateFile path movePath chunks =>
    exact .updateFile path (.inl rfl) (Grows.refl UpdateFileChunk.Extends.refl chunks)

theorem Hunk.Extends.trans {first second third : Hunk} (h : first.Extends second)
    (h' : second.Extends third) : first.Extends third := by
  cases h with
  | addFile path hcontents =>
    cases h' with
    | addFile _ hcontents' => exact .addFile path (hcontents.trans hcontents')
  | deleteFile path => exact h'
  | updateFile path hmove hchunks =>
    cases h' with
    | updateFile _ hmove' hchunks' =>
      refine .updateFile path ?_ (hchunks.trans (fun _ _ _ => .trans) hchunks')
      rcases hmove' with rfl | ⟨rfl, rfl⟩
      · exact hmove
      · -- a later list without chunks came from one without chunks
        obtain rfl := hchunks.eq_nil
        rcases hmove with rfl | hnone
        · exact .inr ⟨rfl, rfl⟩
        · exact .inr hnone

/-! ## One line -/

theorem grows_modifyLastChunk {f : UpdateFileChunk → UpdateFileChunk}
    (hf : ∀ chunk : UpdateFileChunk, chunk.Extends (f chunk)) (chunks : List UpdateFileChunk) :
    Grows UpdateFileChunk.Extends chunks (modifyLastChunk chunks f) := by
  cases chunks using List.reverseRecOn with
  | nil => exact Grows.nil _
  | append_singleton init last =>
    have hmodify : modifyLastChunk (init ++ [last]) f = init ++ [f last] := by
      simp [modifyLastChunk]
    rw [hmodify]
    exact Grows.setLast init (hf last)

theorem extends_of_chunkLine {line : Str} {f : UpdateFileChunk → UpdateFileChunk}
    (h : chunkLine line = some f) (chunk : UpdateFileChunk) : chunk.Extends (f chunk) := by
  unfold chunkLine at h
  split at h
  all_goals cases h
  · exact ⟨rfl, prefix_append _ _, prefix_append _ _, prefix_append _ _, id⟩
  · exact ⟨rfl, prefix_append _ _, prefix_append _ _, prefix_append _ _, id⟩
  · exact ⟨rfl, prefix_rfl, prefix_append _ _, prefix_rfl, id⟩
  · exact ⟨rfl, prefix_append _ _, prefix_rfl, prefix_rfl, id⟩

variable {parser : StreamingPatchParser}

theorem grows_setLastHunk {hunk hunk' : Hunk} (hlast : parser.hunks.getLast? = some hunk)
    (h : hunk.Extends hunk') :
    Grows Hunk.Extends parser.hunks (parser.setLastHunk hunk').hunks := by
  have hhunks : parser.hunks.dropLast ++ [hunk] = parser.hunks :=
    dropLast_append_getLast? hunk hlast
  have hgrows := Grows.setLast parser.hunks.dropLast h
  rw [hhunks] at hgrows
  exact hgrows

variable {parser' : StreamingPatchParser}

theorem Step.grows {line : Str} (h : Step parser line parser') :
    Grows Hunk.Extends parser.hunks parser'.hunks := by
  cases h with
  | beginPatch | blank => exact Grows.refl .refl _
  | handled hbody h =>
    cases h with
    | environmentId | endPatch => exact Grows.refl .refl _
    | hunk => exact Grows.append .refl _ _
  | addLine hmode hlast hline =>
    refine grows_setLastHunk hlast (.addFile _ ?_)
    rw [List.append_assoc]
    exact prefix_append _ _
  | update hmode hlast h =>
    refine grows_setLastHunk hlast ?_
    cases h with
    | skip => exact .refl _
    | moveTo => exact .updateFile _ (.inr ⟨rfl, rfl⟩) (Grows.nil _)
    | emptyContext | context => exact .updateFile _ (.inl rfl) (Grows.append .refl _ _)
    | eof heof hlines hline =>
      refine .updateFile _ (.inl rfl) ?_
      unfold markEof
      split
      · exact Grows.refl .refl _
      · refine grows_modifyLastChunk (fun chunk => ?_) _
        exact ⟨rfl, prefix_rfl, prefix_rfl, prefix_rfl, fun _ => rfl⟩
    | line heof hline =>
      exact .updateFile _ (.inl rfl) (grows_modifyLastChunk (extends_of_chunkLine hline) _)

/-! ## Whole streams -/

theorem grows_of_pushChar {c : Char} (h : parser.pushChar c = .ok parser') :
    Grows Hunk.Extends parser.hunks parser'.hunks := by
  unfold pushChar at h
  split at h
  · exact (processLine_eq_ok_iff.mp h).grows
  · cases h
    exact Grows.refl .refl _

theorem grows_of_pushDelta {delta : Str} (h : parser.pushDelta delta = .ok parser') :
    Grows Hunk.Extends parser.hunks parser'.hunks :=
  foldlM_invariant (I := fun _ next => Grows Hunk.Extends parser.hunks next.hunks)
    (Grows.refl .refl _)
    (fun _ _ _ _ hgrows _ hchar => hgrows.trans (fun _ _ _ => .trans) (grows_of_pushChar hchar)) h

/-- In a stream that is read without an error, the hunks returned after some deltas stay in
every list returned later, where only the last of them may have been extended; and what the
parser has become depends on the text the deltas make together and not on how it is cut. -/
theorem pushDelta_hunks_grow :
    (∀ (deltas later : List Str) (parser parser' : StreamingPatchParser),
      deltas.foldlM pushDelta new = .ok parser → later.foldlM pushDelta parser = .ok parser' →
      parser.hunks.length ≤ parser'.hunks.length ∧ Grows Hunk.Extends parser.hunks parser'.hunks) ∧
    ∀ deltas deltas' : List Str, deltas.flatten = deltas'.flatten →
      deltas.foldlM pushDelta new = deltas'.foldlM pushDelta new := by
  constructor
  · intro deltas later parser parser' _ hlater
    rw [foldlM_pushDelta] at hlater
    have hgrows := grows_of_pushDelta hlater
    exact ⟨hgrows.length_le, hgrows⟩
  · intro deltas deltas' htext
    rw [foldlM_pushDelta, foldlM_pushDelta, htext]

/-- An added file gets a second line. -/
theorem addFile_grows_by_line :
    ∃ parser parser' : StreamingPatchParser,
      parser.hunks = [.addFile ['a'] "x\n".toList] ∧
        parser'.hunks = [.addFile ['a'] "x\ny\n".toList] ∧
        Grows Hunk.Extends parser.hunks parser'.hunks := by
  have hfirst : ["*** Begin Patch\n*** Add File: a\n+x".toList, "\n".toList].foldlM pushDelta new =
      .ok ⟨[], .addFile, [.addFile ['a'] "x\n".toList], none, 3⟩ := by decide +kernel
  have hsecond : ["+y\n".toList].foldlM pushDelta
      ⟨[], .addFile, [.addFile ['a'] "x\n".toList], none, 3⟩ =
      .ok ⟨[], .addFile, [.addFile ['a'] "x\ny\n".toList], none, 4⟩ := by decide +kernel
  exact ⟨_, _, rfl, rfl, (pushDelta_hunks_grow.1 _ _ _ _ hfirst hsecond).2⟩

end Codex.ApplyPatch
