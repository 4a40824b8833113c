import Codex.ApplyPatch.ParserRun

/-!
# Sections of a patch

Which lines of a patch are contents depends on the section they stand in: a line
with a leading blank is a context line in an update section, and otherwise only a
header that is indented.  `Section` finds this from the lines alone, without the
parser's state; `Section.of_step` says that it keeps in step with the parser.
-/

namespace Codex.ApplyPatch

open Text StreamingPatchParser UpdateFileChunk

/-! ## Lines of contents -/

/-- Where in a patch a line stands, as far as reading it depends on it: in an update
section, what matters is whether its last chunk, if any, was ended by `*** End of File`. -/
inductive Section where
  | outside
  | update (lastChunkEnded : Option Bool)
  deriving DecidableEq, Repr

namespace Section

def next : Section → Str → Section
  | .outside, line =>
    if (stripPrefix updateFileMarker (trim line)).isSome then .update none else .outside
  | .update lastChunkEnded, line =>
    let text := trimEnd line
    if (stripPrefix updateFileMarker text).isSome then .update none
    else if text = endPatchMarker || (stripPrefix addFileMarker text).isSome ||
        (stripPrefix deleteFileMarker text).isSome then .outside
    else if isChangeContext text then .update (some false)
    else if text = eofMarker then .update (lastChunkEnded.map fun _ => true)
    else if (stripPrefix moveToMarker text).isSome || lastChunkEnded = some true then
      .update lastChunkEnded
    else .update (some false)

/-- The line is read as contents: an added line, or a line of a chunk. -/
def isContent : Section → Str → Bool
  | .outside, line => line.head? = some '+'
  | .update lastChunkEnded, line =>
    lastChunkEnded ≠ some true && (line.head? = some ' ' || line.head? = some '+' ||
      line.head? = some '-')

/-- One for a line of contents that ends in a carriage return. -/
def crContent (s : Section) (line : Str) : ℕ :=
  if s.isContent line && line.getLast? = some '\r' then 1 else 0

/-- The number of lines of contents that end in a carriage return. -/
def crContents : Section → List Str → ℕ
  | _, [] => 0
  | s, line :: rest => s.crContent line + crContents (s.next line) rest

theorem crContents_cons (s : Section) (line : Str) (rest : List Str) :
    s.crContents (line :: rest) = s.crContent line + (s.next line).crContents rest := rfl

/-- The section in which a parser is. -/
def of (parser : StreamingPatchParser) : Section :=
  match parser.mode, parser.hunks.getLast? with
  | .updateFile _, some (.updateFile _ _ chunks) =>
    .update (chunks.getLast?.map isEndOfFile)
  | _, _ => .outside

theorem of_eq_outside {parser : StreamingPatchParser}
    (h : ∀ hunkLineNumber, parser.mode ≠ .updateFile hunkLineNumber) : of parser = .outside := by
  unfold of
  split
  · next hunkLineNumber _ _ _ hmode _ => exact absurd hmode (h hunkLineNumber)
  · rfl

theorem of_eq_update {parser : StreamingPatchParser} {hunkLineNumber : ℕ} {path : Str}
    {movePath : Option Str} {chunks : List UpdateFileChunk}
    (hmode : parser.mode = .updateFile hunkLineNumber)
    (hlast : parser.hunks.getLast? = some (.updateFile path movePath chunks)) :
    of parser = .update (chunks.getLast?.map isEndOfFile) := by
  unfold of
  rw [hmode, hlast]

end Section

variable {parser parser' : StreamingPatchParser}

/-- Every marker that `handle_hunk_headers_and_end_patch` knows begins with a star. -/
theorem Handled.text_eq {text : Str} (h : Handled parser text parser') :
    ∃ rest, text = '*' :: rest := by
  cases h with
  | environmentId hmode htext => exact ⟨_, htext⟩
  | endPatch htext => exact ⟨_, htext⟩
  | hunk hheader =>
    cases hheader with
    | addFile path => exact ⟨_, rfl⟩
    | deleteFile path => exact ⟨_, rfl⟩
    | updateFile path => exact ⟨_, rfl⟩

variable {line rest : Str}

theorem head?_of_trimEnd {c : Char} (h : trimEnd line = c :: rest) : line.head? = some c := by
  obtain ⟨blank, hline, -⟩ := exists_trimEnd_append line
  rw [hline, h]
  rfl

/-- A line whose trimmed text begins with a star does not begin with a plus. -/
theorem head?_ne_plus_of_trim (h : trim line = '*' :: rest) : line.head? ≠ some '+' := by
  intro hplus
  cases line with
  | nil => cases hplus
  | cons c text =>
    obtain rfl : c = '+' := by simpa using hplus
    rcases trim_plus text with hnil | ⟨rest', hcons⟩
    · rw [hnil] at h
      cases h
    · rw [hcons] at h
      cases h

theorem Section.crContent_of_not_isContent {s : Section} (h : s.isContent line = false) :
    s.crContent line = 0 := by
  simp [crContent, h]

/-- A header is no contents. -/
theorem Section.isContent_of_headerText (h : headerText parser.mode line = '*' :: rest) :
    (of parser).isContent line = false := by
  unfold of
  split
  · next hunkLineNumber _ _ _ hmode _ =>
      rw [hmode] at h
      simp [isContent, head?_of_trimEnd h]
  · simpa [isContent] using head?_ne_plus_of_trim (trim_of_headerText h)

/-! ## The section after a line -/

namespace Section

/-- After a text with this meaning in both kinds of section, the section is `s`. -/
theorem next_eq_of_text {text : Str} {s : Section} (h : headerText parser.mode line = text)
    (htext : text = '*' :: rest)
    (houtside : (if (stripPrefix updateFileMarker text).isSome then .update none else .outside) = s)
    (hupdate : (stripPrefix updateFileMarker text).isSome ∨
      (text = endPatchMarker ∨ (stripPrefix addFileMarker text).isSome ∨
        (stripPrefix deleteFileMarker text).isSome)) : (of parser).next line = s := by
  subst htext
  unfold of
  split
  · next hunkLineNumber _ _ _ hmode _ =>
      rw [hmode] at h
      rw [next, show trimEnd line = '*' :: rest from h, ← houtside]
      by_cases hupdateFile : (stripPrefix updateFileMarker ('*' :: rest)).isSome = true
      · simp only [hupdateFile, if_true]
      · have hother := hupdate.resolve_left hupdateFile
        rcases hother with hend | hadd | hdelete
        · simp [hend]
        · simp [hadd]
        · simp [hdelete]
  · rw [next, trim_of_headerText h]
    exact houtside

theorem of_handled (h : Handled parser (headerText parser.mode line) parser') :
    of parser' = (of parser).next line := by
  generalize htext : headerText parser.mode line = text at h
  cases h with
  | @environmentId id hmode hid hnone hne =>
    have hof : of parser = .outside := of_eq_outside (by simp [hmode])
    have htrim : trim line = environmentIdMarker ++ id := by
      rw [hmode] at htext
      exact htext.trans hid
    rw [of_eq_outside (by simp [hmode]), hof, next, htrim]
    rfl
  | endPatch hend hcomplete =>
    subst hend
    exact (next_eq_of_text htext rfl rfl (.inr (.inl rfl))).symm
  | hunk hheader hcomplete =>
    cases hheader with
    | addFile path =>
      exact (next_eq_of_text htext rfl rfl (.inr (.inr (.inl rfl)))).symm
    | deleteFile path =>
      exact (next_eq_of_text htext rfl rfl (.inr (.inr (.inr rfl)))).symm
    | updateFile path =>
      rw [of_eq_update rfl List.getLast?_concat]
      exact (next_eq_of_text htext rfl rfl (.inl rfl)).symm

/-- A line of an update section that is no header. -/
theorem next_update (h : NotHeader (trimEnd line)) (lastChunkEnded : Option Bool) :
    (update lastChunkEnded).next line =
      if isChangeContext (trimEnd line) then .update (some false)
      else if trimEnd line = eofMarker then .update (lastChunkEnded.map fun _ => true)
      else if (stripPrefix moveToMarker (trimEnd line)).isSome ||
          lastChunkEnded = some true then .update lastChunkEnded
      else .update (some false) := by
  have hend := ne_of_stripPrefix_eq_none h.endPatch
  rw [next]
  simp [h.updateFile, h.addFile, h.deleteFile, hend]

theorem lastChunkEnded_ne_of_not_afterEof {chunks : List UpdateFileChunk} (h : ¬ AfterEof chunks) :
    chunks.getLast?.map isEndOfFile ≠ some true := by
  intro heof
  refine h ?_
  obtain ⟨chunk, hlast, hended⟩ := Option.map_eq_some_iff.mp heof
  simp [AfterEof, hlast, hended]

/-- A line of a chunk leaves the flag of the chunk alone. -/
theorem isEndOfFile_of_chunkLine {f : UpdateFileChunk → UpdateFileChunk}
    (h : chunkLine line = some f) (chunk : UpdateFileChunk) :
    (f chunk).isEndOfFile = chunk.isEndOfFile := by
  unfold chunkLine at h
  split at h <;> cases h <;> rfl

theorem getLast?_modifyLastChunk (chunks : List UpdateFileChunk)
    (f : UpdateFileChunk → UpdateFileChunk) :
    (modifyLastChunk chunks f).getLast? = some (f (chunks.getLast?.getD .empty)) := by
  unfold modifyLastChunk
  cases chunks.getLast? with
  | none => rfl
  | some chunk => simp

theorem next_of_updateStep {movePath movePath' : Option Str} {chunks chunks' : List UpdateFileChunk}
    (h : UpdateStep line movePath chunks movePath' chunks') :
    .update (chunks'.getLast?.map isEndOfFile) =
      (update (chunks.getLast?.map isEndOfFile)).next line := by
  rw [next_update h.notHeader]
  cases h with
  | skip heof hline =>
    cases hlast : chunks.getLast? with
    | none => simp [AfterEof, hlast] at heof
    | some chunk =>
      have hended : chunk.isEndOfFile = true := by simpa [AfterEof, hlast] using heof
      rw [hline, Option.map_some, hended]
      rfl
  | moveTo hline =>
    rw [hline]
    rfl
  | emptyContext hlines hline | context hlines hline =>
    rw [hline, List.getLast?_concat]
    rfl
  | eof heof hlines hline =>
    rw [hline]
    unfold markEof
    cases hlast : chunks.getLast? with
    | none =>
      rw [List.getLast?_eq_none_iff] at hlast
      rw [hlast]
      rfl
    | some chunk =>
      have hne : chunks.isEmpty = false := by
        cases chunks with
        | nil => cases hlast
        | cons _ _ => rfl
      rw [hne, if_neg (by decide), getLast?_modifyLastChunk]
      rfl
  | @line _ _ f heof hline =>
    obtain ⟨hmove, hcontext, hempty, heofMarker⟩ := notMarker_of_chunkLine hline
    have hnot : isChangeContext (trimEnd line) = false := by
      simp [isChangeContext, hempty, hcontext]
    have hended := lastChunkEnded_ne_of_not_afterEof heof
    have hflag : (chunks.getLast?.getD .empty).isEndOfFile = false := by
      cases hlast : chunks.getLast? with
      | none => rfl
      | some chunk => simpa [hlast] using hended
    simp only [hnot, hmove, heofMarker, hended, getLast?_modifyLastChunk, Option.map_some,
      isEndOfFile_of_chunkLine hline, hflag]
    rfl

/-- The section is found from the lines alone. -/
theorem of_step (h : Step parser line parser') : of parser' = (of parser).next line := by
  cases h with
  | beginPatch hmode hline | blank hmode hline =>
    have hof : of parser = .outside := of_eq_outside (by simp [hmode])
    rw [hof, next, hline]
    rfl
  | handled hbody h => exact of_handled h
  | @addLine path contents text hmode hlast hline =>
    have hof : of parser = .outside := of_eq_outside (by simp [hmode])
    rw [of_eq_outside (by simp [setLastHunk, hmode]), hof, next, hline,
      (notHeader_trim_plus text).updateFile]
    rfl
  | update hmode hlast h =>
    rw [of_eq_update hmode hlast, ← next_of_updateStep h]
    exact of_eq_update hmode List.getLast?_concat

end Section

end Codex.ApplyPatch
