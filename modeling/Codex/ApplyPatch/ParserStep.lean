import Codex.ApplyPatch.Parser
import Codex.Lib.Except

/-!
# What a line of a patch can do

`processLine` tests a line for one thing after the other, in an order that depends
on the mode.  The relation `Step` lists the ways in which a line is accepted, each
with the conditions under which it is: a test that comes earlier in the code and
fails for every such line leaves no condition behind.  `processLine_eq_ok_iff`
says that the two agree, and is the only place where the tests are unfolded.
-/

namespace Codex.ApplyPatch

open Text StreamingPatchParser

/-! ## Markers and the lines that hold none -/

variable {text : Str}

theorem ne_of_stripPrefix_eq_none {marker : Str} (h : stripPrefix marker text = none) :
    text ≠ marker := by
  intro heq
  exact stripPrefix_eq_none_iff.mp h [] (by rw [heq, List.append_nil])

/-- Trimming the end of a line leaves its first character, or nothing. -/
theorem trimEnd_cons (c : Char) (text : Str) :
    trimEnd (c :: text) = [] ∨ ∃ rest, trimEnd (c :: text) = c :: rest := by
  have hprefix : trimEnd (c :: text) <+: c :: text := List.rdropWhile_prefix _ _
  cases htrim : trimEnd (c :: text) with
  | nil => exact .inl rfl
  | cons c' rest =>
    rw [htrim] at hprefix
    obtain ⟨tail, htail⟩ := hprefix
    exact .inr ⟨rest, by rw [(List.cons.inj htail).1]⟩

/-- The text is neither a hunk header nor the end of the patch. -/
structure NotHeader (text : Str) : Prop where
  endPatch : stripPrefix endPatchMarker text = none
  addFile : stripPrefix addFileMarker text = none
  deleteFile : stripPrefix deleteFileMarker text = none
  updateFile : stripPrefix updateFileMarker text = none

/-- What a line of a chunk does to the chunk: a context line, an added line, a removed
line, or an empty line, which is an empty context line. -/
def chunkLine : Str → Option (UpdateFileChunk → UpdateFileChunk)
  | [] => some fun chunk => chunk.pushContextLine []
  | ' ' :: text => some fun chunk => chunk.pushContextLine text
  | '+' :: text => some fun chunk => { chunk with newLines := chunk.newLines ++ [text] }
  | '-' :: text => some fun chunk => { chunk with oldLines := chunk.oldLines ++ [text] }
  | _ => none

variable {line : Str} {f : UpdateFileChunk → UpdateFileChunk}

theorem stripPrefix_of_chunkLine (marker : Str) (h : chunkLine line = some f)
    (hmarker : ∀ rest, stripPrefix marker [] = none ∧ stripPrefix marker (' ' :: rest) = none ∧
      stripPrefix marker ('+' :: rest) = none ∧ stripPrefix marker ('-' :: rest) = none) :
    stripPrefix marker (trimEnd line) = none := by
  have hcons : ∀ c text, (∀ rest, stripPrefix marker (c :: rest) = none) →
      stripPrefix marker (trimEnd (c :: text)) = none := by
    intro c text hc
    rcases trimEnd_cons c text with hnil | ⟨rest, hrest⟩
    · rw [hnil]
      exact (hmarker []).1
    · rw [hrest]
      exact hc rest
  unfold chunkLine at h
  split at h
  · exact (hmarker []).1
  · exact hcons ' ' _ fun rest => (hmarker rest).2.1
  · exact hcons '+' _ fun rest => (hmarker rest).2.2.1
  · exact hcons '-' _ fun rest => (hmarker rest).2.2.2
  · cases h

/-! ## Lines of an update section -/

/-- The last chunk was ended by `*** End of File`. -/
def AfterEof (chunks : List UpdateFileChunk) : Prop :=
  chunks.getLast?.any UpdateFileChunk.isEndOfFile = true

/-- `*** End of File`, which does nothing before the first chunk. -/
def markEof (chunks : List UpdateFileChunk) : List UpdateFileChunk :=
  if chunks.isEmpty then chunks
  else modifyLastChunk chunks fun chunk => { chunk with isEndOfFile := true }

/-- What a line that is no header does to the move destination and the chunks of an
update section. -/
inductive UpdateStep (line : Str) :
    Option Str → List UpdateFileChunk → Option Str → List UpdateFileChunk → Prop
  | skip {movePath : Option Str} {chunks : List UpdateFileChunk} (heof : AfterEof chunks)
      (hline : trimEnd line = []) : UpdateStep line movePath chunks movePath chunks
  | moveTo {path : Str} (hline : trimEnd line = moveToMarker ++ path) :
      UpdateStep line none [] (some path) []
  | emptyContext {movePath : Option Str} {chunks : List UpdateFileChunk}
      (hlines : lastChunkHasNoLines chunks = false)
      (hline : trimEnd line = emptyChangeContextMarker) :
      UpdateStep line movePath chunks movePath (chunks ++ [.empty])
  | context {movePath : Option Str} {chunks : List UpdateFileChunk} {changeContext : Str}
      (hlines : lastChunkHasNoLines chunks = false)
      (hline : trimEnd line = changeContextMarker ++ changeContext) :
      UpdateStep line movePath chunks movePath
        (chunks ++ [{ UpdateFileChunk.empty with changeContext := some changeContext }])
  | eof {movePath : Option Str} {chunks : List UpdateFileChunk} (heof : ¬ AfterEof chunks)
      (hlines : lastChunkHasNoLines chunks = false) (hline : trimEnd line = eofMarker) :
      UpdateStep line movePath chunks movePath (markEof chunks)
  | line {movePath : Option Str} {chunks : List UpdateFileChunk}
      {f : UpdateFileChunk → UpdateFileChunk} (heof : ¬ AfterEof chunks)
      (hline : chunkLine line = some f) :
      UpdateStep line movePath chunks movePath (modifyLastChunk chunks f)

variable {chunks : List UpdateFileChunk} {movePath : Option Str}

theorem UpdateStep.notHeader {movePath' : Option Str} {chunks' : List UpdateFileChunk}
    (h : UpdateStep line movePath chunks movePath' chunks') : NotHeader (trimEnd line) := by
  cases h with
  | skip heof hline | moveTo hline | emptyContext hlines hline | context hlines hline
  | eof heof hlines hline =>
    rw [hline]
    exact ⟨rfl, rfl, rfl, rfl⟩
  | line heof hline =>
    exact ⟨stripPrefix_of_chunkLine _ hline fun _ => ⟨rfl, rfl, rfl, rfl⟩,
      stripPrefix_of_chunkLine _ hline fun _ => ⟨rfl, rfl, rfl, rfl⟩,
      stripPrefix_of_chunkLine _ hline fun _ => ⟨rfl, rfl, rfl, rfl⟩,
      stripPrefix_of_chunkLine _ hline fun _ => ⟨rfl, rfl, rfl, rfl⟩⟩

variable {parser : StreamingPatchParser}

theorem setLastHunk_self {hunk : Hunk} (h : parser.hunks.getLast? = some hunk) :
    parser.setLastHunk hunk = parser := by
  unfold setLastHunk
  rw [List.dropLast_append_getLast? hunk h]

/-- A line of a chunk is none of the markers in a section. -/
theorem notMarker_of_chunkLine (hline : chunkLine line = some f) :
    stripPrefix moveToMarker (trimEnd line) = none ∧
      stripPrefix changeContextMarker (trimEnd line) = none ∧
      trimEnd line ≠ emptyChangeContextMarker ∧ trimEnd line ≠ eofMarker :=
  ⟨stripPrefix_of_chunkLine _ hline fun _ => ⟨rfl, rfl, rfl, rfl⟩,
    stripPrefix_of_chunkLine _ hline fun _ => ⟨rfl, rfl, rfl, rfl⟩,
    ne_of_stripPrefix_eq_none (stripPrefix_of_chunkLine _ hline fun _ => ⟨rfl, rfl, rfl, rfl⟩),
    ne_of_stripPrefix_eq_none (stripPrefix_of_chunkLine _ hline fun _ => ⟨rfl, rfl, rfl, rfl⟩)⟩

theorem processUpdateLine_of_updateStep {path : Str} {movePath' : Option Str}
    {chunks' : List UpdateFileChunk}
    (hlast : parser.hunks.getLast? = some (.updateFile path movePath chunks))
    (h : UpdateStep line movePath chunks movePath' chunks') :
    parser.processUpdateLine line path movePath chunks =
      .ok (parser.setLastHunk (.updateFile path movePath' chunks')) := by
  cases h with
  | skip heof hline =>
    unfold processUpdateLine
    rw [AfterEof] at heof
    simp only [heof, hline, List.isEmpty_nil, Bool.and_self, if_true]
    rw [setLastHunk_self hlast]
  | moveTo hline =>
    unfold processUpdateLine
    simp only [hline]
    rfl
  | emptyContext hlines hline =>
    unfold processUpdateLine
    simp only [hline, hlines]
    have hcontext : isChangeContext emptyChangeContextMarker = true := rfl
    have hmove : stripPrefix moveToMarker emptyChangeContextMarker = none := rfl
    have hne : emptyChangeContextMarker.isEmpty = false := rfl
    simp [hcontext, hmove, hne]
  | @context _ _ changeContext hlines hline =>
    unfold processUpdateLine
    simp only [hline, hlines]
    have hcontext : isChangeContext (changeContextMarker ++ changeContext) = true := rfl
    have hmove : stripPrefix moveToMarker (changeContextMarker ++ changeContext) = none := rfl
    have hempty : changeContextMarker ++ changeContext ≠ emptyChangeContextMarker := by
      rintro ⟨⟩
    have hstrip : stripPrefix changeContextMarker (changeContextMarker ++ changeContext) =
        some changeContext := rfl
    have hne : (changeContextMarker ++ changeContext).isEmpty = false := rfl
    simp [hcontext, hmove, hne, hempty, hstrip]
  | eof heof hlines hline =>
    have hafter : chunks.getLast?.any UpdateFileChunk.isEndOfFile = false := by
      simpa [AfterEof] using heof
    have hmove : stripPrefix moveToMarker eofMarker = none := rfl
    have hempty : eofMarker ≠ emptyChangeContextMarker := by decide
    have hstrip : stripPrefix changeContextMarker eofMarker = none := rfl
    unfold processUpdateLine markEof
    simp only [hline, hlines, hafter, hmove, hstrip]
    by_cases hchunks : chunks.isEmpty = true
    · simp [hempty, hchunks, setLastHunk_self hlast]
    · simp [hempty, hchunks]
  | line heof hline =>
    -- a line of a chunk passes all tests for markers
    obtain ⟨hmove, hcontext, hempty, heofMarker⟩ := notMarker_of_chunkLine hline
    have hnot : isChangeContext (trimEnd line) = false := by
      simp [isChangeContext, hempty, hcontext]
    have hafter : chunks.getLast?.any UpdateFileChunk.isEndOfFile = false := by
      simpa [AfterEof] using heof
    unfold processUpdateLine
    simp only [hafter, hmove, hnot, hempty, hcontext, heofMarker, ite_self]
    unfold chunkLine at hline
    split at hline <;> cases hline <;> rfl

variable {parser' : StreamingPatchParser}

theorem updateStep_of_processUpdateLine {path : Str}
    (hlast : parser.hunks.getLast? = some (.updateFile path movePath chunks))
    (h : parser.processUpdateLine line path movePath chunks = .ok parser') :
    ∃ movePath' chunks', UpdateStep line movePath chunks movePath' chunks' ∧
      parser' = parser.setLastHunk (.updateFile path movePath' chunks') := by
  unfold processUpdateLine at h
  dsimp only at h
  split at h
  · next hskip =>
      obtain ⟨heof, hempty⟩ := Bool.and_eq_true_iff.mp hskip
      cases h
      exact ⟨movePath, chunks, .skip heof (List.isEmpty_iff.mp hempty),
        (setLastHunk_self hlast).symm⟩
  split at h
  · cases h
  next hcontext =>
  split at h
  · next moveToPath hmove =>
      split_ifs at hmove with hfresh
      obtain ⟨hchunks, hnone⟩ := Bool.and_eq_true_iff.mp hfresh
      obtain rfl := List.isEmpty_iff.mp hchunks
      obtain rfl := Option.isNone_iff_eq_none.mp hnone
      cases h
      exact ⟨_, _, .moveTo (stripPrefix_eq_some_iff.mp hmove), rfl⟩
  split at h
  · cases h
  next hlines =>
  split at h
  · next hline =>
      have hcontext' : isChangeContext (trimEnd line) = true := by rw [hline]; rfl
      cases h
      exact ⟨_, _, .emptyContext (by simpa [hcontext'] using hlines) hline, rfl⟩
  next hempty =>
  split at h
  · next changeContext hstrip =>
      have hcontext' : isChangeContext (trimEnd line) = true := by
        simp [isChangeContext, hstrip]
      cases h
      exact ⟨_, _, .context (by simpa [hcontext'] using hlines)
        (stripPrefix_eq_some_iff.mp hstrip), rfl⟩
  next hstrip =>
  -- the line is no chunk header, so the section is not at the end of a file
  have hnot : isChangeContext (trimEnd line) = false := by
    simp [isChangeContext, hempty, hstrip]
  have heof : ¬ AfterEof chunks := by
    intro heof
    rw [AfterEof] at heof
    simp [heof, hnot] at hcontext
  split at h
  · next hline =>
      split at h
      · cases h
      next hnoLines =>
      refine ⟨_, _, .eof heof (by simpa using hnoLines) hline, ?_⟩
      unfold markEof
      split at h
      · next hchunks =>
          cases h
          rw [if_pos hchunks, setLastHunk_self hlast]
      · next hchunks =>
          cases h
          rw [if_neg hchunks]
  split at h
  case h_5 => split at h <;> cases h
  all_goals
    cases h
    exact ⟨_, _, .line heof rfl, rfl⟩

/-! ## Headers and the end of the patch -/

/-- The section before a header is complete: an update has a chunk, and its last chunk
has a line. -/
def SectionComplete (parser : StreamingPatchParser) : Prop :=
  ∀ path movePath chunks, parser.hunks.getLast? = some (.updateFile path movePath chunks) →
    lastChunkHasNoLines chunks = false ∧
      (chunks = [] → ∀ hunkLineNumber, parser.mode ≠ .updateFile hunkLineNumber)

theorem ensureUpdateHunkIsNotEmpty_eq_ok_iff :
    parser.ensureUpdateHunkIsNotEmpty line = .ok () ↔ SectionComplete parser := by
  unfold ensureUpdateHunkIsNotEmpty SectionComplete
  split
  · next path movePath chunks hlast =>
      simp only [hlast, Option.some.injEq, Hunk.updateFile.injEq]
      split
      · next hunkLineNumber hmode =>
          constructor
          · intro h
            cases h
          · intro h
            exact absurd hmode ((h path movePath [] ⟨rfl, rfl, rfl⟩).2 rfl hunkLineNumber)
      · next hother =>
          constructor
          · rintro h _ _ _ ⟨rfl, rfl, rfl⟩
            refine ⟨?_, fun hchunks hunkLineNumber hmode => hother hunkLineNumber hchunks hmode⟩
            by_contra hlines
            rw [Bool.not_eq_false] at hlines
            rw [if_pos hlines] at h
            split at h <;> cases h
          · intro h
            rw [if_neg (by simp [(h path movePath _ ⟨rfl, rfl, rfl⟩).1])]
  · next hother =>
      refine ⟨fun _ path movePath chunks hlast => ?_, fun _ => rfl⟩
      exact absurd hlast (hother path movePath chunks)

/-- The hunk that a header begins and the mode it leads to. -/
inductive Header (lineNumber : ℕ) : Str → Hunk → StreamingParserMode → Prop
  | addFile (path : Str) : Header lineNumber (addFileMarker ++ path) (.addFile path []) .addFile
  | deleteFile (path : Str) :
      Header lineNumber (deleteFileMarker ++ path) (.deleteFile path) .deleteFile
  | updateFile (path : Str) :
      Header lineNumber (updateFileMarker ++ path) (.updateFile path none [])
        (.updateFile lineNumber)

/-- What a header or the end of the patch does. -/
inductive Handled (parser : StreamingPatchParser) (text : Str) : StreamingPatchParser → Prop
  | environmentId {id : Str} (hmode : parser.mode = .startedPatch)
      (htext : text = environmentIdMarker ++ id) (hnone : parser.environmentId = none)
      (hid : trim id ≠ []) : Handled parser text { parser with environmentId := some (trim id) }
  | endPatch (htext : text = endPatchMarker) (hcomplete : SectionComplete parser) :
      Handled parser text { parser with mode := .endedPatch }
  | hunk {hunk : Hunk} {mode : StreamingParserMode}
      (hheader : Header parser.lineNumber text hunk mode) (hcomplete : SectionComplete parser) :
      Handled parser text { parser with hunks := parser.hunks ++ [hunk], mode }

theorem startHunk_eq {hunk : Hunk} {mode : StreamingParserMode}
    (hcomplete : SectionComplete parser) :
    parser.startHunk text hunk mode =
      .ok { parser with hunks := parser.hunks ++ [hunk], mode } := by
  unfold startHunk
  rw [ensureUpdateHunkIsNotEmpty_eq_ok_iff.mpr hcomplete]
  rfl

theorem handled_of_startHunk {hunk : Hunk} {mode : StreamingParserMode}
    (hheader : Header parser.lineNumber text hunk mode)
    (h : some <$> parser.startHunk text hunk mode = .ok (some parser')) :
    Handled parser text parser' := by
  obtain ⟨started, hstart, hsome⟩ := map_eq_ok h
  cases hsome
  obtain ⟨_, hensure, hstart⟩ := bind_eq_ok hstart
  cases hstart
  exact .hunk hheader (ensureUpdateHunkIsNotEmpty_eq_ok_iff.mp hensure)

theorem handleHunkHeadersAndEndPatch_of_handled (h : Handled parser text parser') :
    parser.handleHunkHeadersAndEndPatch text = .ok (some parser') := by
  unfold handleHunkHeadersAndEndPatch
  cases h with
  | @environmentId id hmode htext hnone hid =>
    have hstrip : stripPrefix environmentIdMarker text = some id :=
      stripPrefix_eq_some_iff.mpr htext
    simp [hmode, hstrip, hnone, hid]
  | endPatch htext hcomplete =>
    have hstrip : stripPrefix environmentIdMarker endPatchMarker = none := rfl
    subst htext
    rw [hstrip, if_pos rfl, ensureUpdateHunkIsNotEmpty_eq_ok_iff.mpr hcomplete]
    split
    · next hnone => cases hnone
    · rfl
  | hunk hheader hcomplete =>
    split
    · next hmode hstrip =>
        cases hheader <;> cases hstrip
    cases hheader with
    | addFile path =>
      have hend : addFileMarker ++ path ≠ endPatchMarker := ne_of_stripPrefix_eq_none rfl
      have hadd : stripPrefix addFileMarker (addFileMarker ++ path) = some path := rfl
      simp only [if_neg hend, hadd, startHunk_eq hcomplete]
      rfl
    | deleteFile path =>
      have hdelete : stripPrefix deleteFileMarker (deleteFileMarker ++ path) = some path := rfl
      simp only [hdelete, startHunk_eq hcomplete]
      rfl
    | updateFile path =>
      have hdelete : stripPrefix deleteFileMarker (updateFileMarker ++ path) = none := rfl
      simp only [hdelete, startHunk_eq hcomplete]
      rfl

theorem handled_of_handleHunkHeadersAndEndPatch
    (h : parser.handleHunkHeadersAndEndPatch text = .ok (some parser')) :
    Handled parser text parser' := by
  unfold handleHunkHeadersAndEndPatch at h
  split at h
  · next id hmode hstrip =>
      split_ifs at h with hsome hid
      cases h
      exact .environmentId hmode (stripPrefix_eq_some_iff.mp hstrip)
        (Option.not_isSome_iff_eq_none.mp hsome) hid
  split at h
  · next htext =>
      obtain ⟨_, hensure, h⟩ := bind_eq_ok h
      cases h
      exact .endPatch htext (ensureUpdateHunkIsNotEmpty_eq_ok_iff.mp hensure)
  split at h
  · next path hadd =>
      obtain rfl := stripPrefix_eq_some_iff.mp hadd
      exact handled_of_startHunk (.addFile path) h
  · next path hadd hdelete =>
      obtain rfl := stripPrefix_eq_some_iff.mp hdelete
      exact handled_of_startHunk (.deleteFile path) h
  · next path hadd hdelete hupdate =>
      obtain rfl := stripPrefix_eq_some_iff.mp hupdate
      exact handled_of_startHunk (.updateFile path) h
  · cases h

theorem handleHunkHeadersAndEndPatch_of_notHeader (htext : NotHeader text)
    (hmode : parser.mode ≠ .startedPatch) :
    parser.handleHunkHeadersAndEndPatch text = .ok none := by
  unfold handleHunkHeadersAndEndPatch
  split
  · next hstarted _ => exact absurd hstarted hmode
  · rw [if_neg (ne_of_stripPrefix_eq_none htext.endPatch), htext.addFile, htext.deleteFile,
      htext.updateFile]

/-! ## Lines -/

/-- The modes in which headers are looked for. -/
def StreamingParserMode.InBody : StreamingParserMode → Prop
  | .notStarted | .endedPatch => False
  | _ => True

/-- The text of a line in which headers are looked for: in an update section a leading
blank makes a context line. -/
def headerText : StreamingParserMode → Str → Str
  | .updateFile _, line => trimEnd line
  | _, line => trim line

/-- The ways in which a line is accepted. -/
inductive Step (parser : StreamingPatchParser) (line : Str) : StreamingPatchParser → Prop
  | beginPatch (hmode : parser.mode = .notStarted) (hline : trim line = beginPatchMarker) :
      Step parser line { parser with mode := .startedPatch }
  | handled {parser' : StreamingPatchParser} (hbody : parser.mode.InBody)
      (h : Handled parser (headerText parser.mode line) parser') : Step parser line parser'
  | addLine {path contents text : Str} (hmode : parser.mode = .addFile)
      (hlast : parser.hunks.getLast? = some (.addFile path contents))
      (hline : line = '+' :: text) :
      Step parser line (parser.setLastHunk (.addFile path (contents ++ text ++ ['\n'])))
  | update {hunkLineNumber : ℕ} {path : Str} {movePath movePath' : Option Str}
      {chunks chunks' : List UpdateFileChunk} (hmode : parser.mode = .updateFile hunkLineNumber)
      (hlast : parser.hunks.getLast? = some (.updateFile path movePath chunks))
      (h : UpdateStep line movePath chunks movePath' chunks') :
      Step parser line (parser.setLastHunk (.updateFile path movePath' chunks'))
  | blank (hmode : parser.mode = .endedPatch) (hline : trim line = []) : Step parser line parser

theorem trim_plus (text : Str) :
    trim ('+' :: text) = [] ∨ ∃ rest, trim ('+' :: text) = '+' :: rest := by
  exact trimEnd_cons '+' text

theorem notHeader_trim_plus (text : Str) : NotHeader (trim ('+' :: text)) := by
  rcases trim_plus text with h | ⟨rest, h⟩
  · rw [h]
    exact ⟨rfl, rfl, rfl, rfl⟩
  · rw [h]
    exact ⟨rfl, rfl, rfl, rfl⟩

theorem processLine_of_step (h : Step parser line parser') :
    parser.processLine line = .ok parser' := by
  unfold processLine
  cases h with
  | beginPatch hmode hline | blank hmode hline => simp only [hmode, hline, if_true]
  | handled hbody h =>
    have hhandle := handleHunkHeadersAndEndPatch_of_handled h
    cases hmode : parser.mode with
    | notStarted | endedPatch =>
      rw [hmode] at hbody
      exact hbody.elim
    | startedPatch | addFile | deleteFile | updateFile hunkLineNumber =>
      rw [hmode] at hhandle
      simp only [headerText] at hhandle
      simp only [hhandle]
      rfl
  | @addLine _ _ text hmode hlast hline =>
    subst hline
    have hhandle := handleHunkHeadersAndEndPatch_of_notHeader (notHeader_trim_plus text)
      (by rw [hmode]; exact StreamingParserMode.noConfusion : parser.mode ≠ .startedPatch)
    simp only [hmode, hhandle, hlast]
    rfl
  | update hmode hlast h =>
    have hhandle := handleHunkHeadersAndEndPatch_of_notHeader h.notHeader
      (by rw [hmode]; exact StreamingParserMode.noConfusion : parser.mode ≠ .startedPatch)
    simp only [hmode, hhandle, hlast]
    exact processUpdateLine_of_updateStep hlast h

/-- The shape that the code has in every mode of the body: a header is handled, and any
other line is left to the mode. -/
theorem handled_or_rest {rest : Except ParseError StreamingPatchParser} (h : (do
      match ← parser.handleHunkHeadersAndEndPatch text with
      | some parser => return parser
      | none => rest) = Except.ok parser') : Handled parser text parser' ∨ rest = .ok parser' := by
  obtain ⟨handled, hhandle, h⟩ := bind_eq_ok h
  cases handled with
  | none => exact .inr h
  | some handled =>
    cases h
    exact .inl (handled_of_handleHunkHeadersAndEndPatch hhandle)

theorem step_of_processLine (h : parser.processLine line = .ok parser') :
    Step parser line parser' := by
  unfold processLine at h
  cases hmode : parser.mode with
  | notStarted =>
    rw [hmode] at h
    dsimp only at h
    split_ifs at h with hline
    cases h
    exact .beginPatch hmode hline
  | startedPatch | deleteFile =>
    rw [hmode] at h
    rcases handled_or_rest h with hhandled | hrest
    · exact .handled (hmode ▸ trivial) (hmode ▸ hhandled)
    · cases hrest
  | addFile =>
    rw [hmode] at h
    rcases handled_or_rest h with hhandled | hrest
    · exact .handled (hmode ▸ trivial) (hmode ▸ hhandled)
    · split at hrest
      · next lineToAdd path contents hlast =>
          cases hrest
          exact .addLine hmode hlast rfl
      · cases hrest
  | updateFile hunkLineNumber =>
    rw [hmode] at h
    rcases handled_or_rest h with hhandled | hrest
    · exact .handled (hmode ▸ trivial) (hmode ▸ hhandled)
    · split at hrest
      · next path movePath chunks hlast =>
          obtain ⟨movePath', chunks', hupdate, rfl⟩ :=
            updateStep_of_processUpdateLine hlast hrest
          exact .update hmode hlast hupdate
      · cases hrest
  | endedPatch =>
    rw [hmode] at h
    dsimp only at h
    split_ifs at h with hline
    cases h
    exact .blank hmode hline

/-- A line is accepted exactly in the ways that `Step` lists. -/
theorem processLine_eq_ok_iff : parser.processLine line = .ok parser' ↔ Step parser line parser' :=
  ⟨step_of_processLine, processLine_of_step⟩

end Codex.ApplyPatch
