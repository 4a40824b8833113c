import Codex.ApplyPatch.ParserStep

/-!
# Runs of the patch parser

The parser takes characters, but what it does is decided line by line.  Here its
runs are put in terms of lines: `pushDelta` processes the terminated lines of the
text, each without its terminator, and keeps the rest for later; how a text is
split into deltas does not matter.
-/

namespace Codex.ApplyPatch

open Text StreamingPatchParser List

/-! ## From characters to lines -/

variable (parser : StreamingPatchParser) (line : Str)

/-- The next line, as `push_delta` counts and processes it. -/
def acceptLine : Except ParseError StreamingPatchParser :=
  processLine { parser with lineNumber := parser.lineNumber + 1 } line

def acceptLines (lines : List Str) : Except ParseError StreamingPatchParser :=
  lines.foldlM acceptLine parser

@[simp] theorem acceptLines_nil : acceptLines parser [] = .ok parser := rfl

theorem acceptLines_cons (lines : List Str) :
    acceptLines parser (line :: lines) =
      (acceptLine parser line).bind fun parser => acceptLines parser lines := rfl

variable {parser parser' : StreamingPatchParser} {line : Str}

theorem acceptLines_cons_eq_ok {lines : List Str} :
    acceptLines parser (line :: lines) = .ok parser' ↔
      ∃ next, acceptLine parser line = .ok next ∧ acceptLines next lines = .ok parser' := by
  exact bind_eq_ok_iff

theorem acceptLines_append_eq_ok {first second : List Str} :
    acceptLines parser (first ++ second) = .ok parser' ↔
      ∃ next, acceptLines parser first = .ok next ∧ acceptLines next second = .ok parser' := by
  rw [acceptLines, foldlM_append]
  exact bind_eq_ok_iff

theorem acceptLine_eq_ok_iff :
    acceptLine parser line = .ok parser' ↔
      Step { parser with lineNumber := parser.lineNumber + 1 } line parser' :=
  processLine_eq_ok_iff

/-- A line leaves the buffer alone. -/
theorem Step.lineBuffer_eq (h : Step parser line parser') :
    parser'.lineBuffer = parser.lineBuffer := by
  cases h with
  | handled hbody h => cases h <;> rfl
  | beginPatch | addLine | update | blank => rfl

/-- A text is processed line by line, and what comes after its last terminator is kept. -/
theorem pushDelta_eq {delta last : Str} {lines : List Str} (hbuffer : '\n' ∉ parser.lineBuffer)
    (hlines : (parser.lineBuffer ++ delta).splitOn '\n' = lines ++ [last]) :
    parser.pushDelta delta =
      (acceptLines { parser with lineBuffer := [] } (lines.map stripCr)).map
        fun parser => { parser with lineBuffer := last } := by
  induction delta generalizing parser lines with
  | nil =>
    rw [append_nil, splitOn_eq_singleton hbuffer] at hlines
    obtain ⟨rfl, hlast⟩ : lines = [] ∧ parser.lineBuffer = last := by
      cases lines with
      | nil => exact ⟨rfl, by simpa using hlines⟩
      | cons line rest => simp at hlines
    subst hlast
    rfl
  | cons c rest ih =>
    have hcons : parser.pushDelta (c :: rest) =
        (parser.pushChar c).bind fun parser => parser.pushDelta rest := rfl
    by_cases hc : c = '\n'
    · subst hc
      have hsplit : (parser.lineBuffer ++ '\n' :: rest).splitOn '\n' =
          parser.lineBuffer :: rest.splitOn '\n' :=
        splitOn_append_cons_self_of_not_mem hbuffer rest
      rw [hsplit] at hlines
      cases lines with
      | nil =>
        have hlength := congrArg List.length hlines
        have hne : rest.splitOn '\n' ≠ [] := splitOnP_ne_nil _ _
        cases hrest : rest.splitOn '\n' with
        | nil => exact absurd hrest hne
        | cons _ _ => simp [hrest] at hlength
      | cons line others =>
        rw [cons_append, List.cons.injEq] at hlines
        obtain ⟨rfl, hothers⟩ := hlines
        rw [hcons, map_cons, acceptLines_cons]
        have hpush : parser.pushChar '\n' =
            acceptLine { parser with lineBuffer := [] } (stripCr parser.lineBuffer) := rfl
        rw [hpush]
        cases haccept : acceptLine { parser with lineBuffer := [] } (stripCr parser.lineBuffer) with
        | error error => rfl
        | ok next =>
          have hnext : next.lineBuffer = [] := (acceptLine_eq_ok_iff.mp haccept).lineBuffer_eq
          have hsame : { next with lineBuffer := [] } = next := by rw [← hnext]
          have hrest := @ih next others (by simp [hnext]) (by rw [hnext]; exact hothers)
          rw [hsame] at hrest
          exact hrest
    · have hpush : parser.pushChar c =
          .ok { parser with lineBuffer := parser.lineBuffer ++ [c] } := by
        simp [pushChar, hc]
      rw [hcons, hpush]
      -- the character joins the unfinished line, and so the text as a whole is the same
      have hbuffer' : '\n' ∉ parser.lineBuffer ++ [c] := by simp [hbuffer, Ne.symm hc]
      have hlines' : (parser.lineBuffer ++ [c] ++ rest).splitOn '\n' = lines ++ [last] := by
        simpa using hlines
      exact @ih { parser with lineBuffer := parser.lineBuffer ++ [c] } lines hbuffer' hlines'

theorem pushDelta_new {text last : Str} {lines : List Str}
    (hlines : text.splitOn '\n' = lines ++ [last]) :
    new.pushDelta text = (acceptLines new (lines.map stripCr)).map
      fun parser => { parser with lineBuffer := last } :=
  pushDelta_eq not_mem_nil hlines

/-- The deltas of a stream add up to its text. -/
theorem foldlM_pushDelta (parser : StreamingPatchParser) (deltas : List Str) :
    deltas.foldlM pushDelta parser = parser.pushDelta deltas.flatten := by
  induction deltas generalizing parser with
  | nil => rfl
  | cons delta rest ih =>
    have happend : parser.pushDelta (delta ++ rest.flatten) =
        (parser.pushDelta delta).bind fun parser => parser.pushDelta rest.flatten :=
      foldlM_append
    rw [foldlM_cons, flatten_cons, happend]
    simp only [ih]
    rfl

/-! ## The end of the patch -/

/-- Where the trimmed end already leaves a marker, nothing is trimmed from the start. -/
theorem trim_of_trimEnd {rest : Str} (h : trimEnd line = '*' :: rest) :
    trim line = '*' :: rest := by
  have hidem : trimEnd (trimEnd line) = trimEnd line := rdropWhile_idempotent _ _
  calc trim line = trim (trimEnd line) := (trim_trimEnd line).symm
    _ = trimEnd ('*' :: rest) := by rw [h]; rfl
    _ = '*' :: rest := by rw [← h, hidem]

theorem trim_of_headerText {mode : StreamingParserMode} {rest : Str}
    (h : headerText mode line = '*' :: rest) : trim line = '*' :: rest := by
  cases mode with
  | updateFile hunkLineNumber => exact trim_of_trimEnd h
  | _ => exact h

/-- Only the end of the patch leads to the mode after it. -/
theorem Step.of_endedPatch (h : Step parser line parser') (hended : parser'.mode = .endedPatch) :
    (parser.mode = .endedPatch ∧ trim line = [] ∧ parser' = parser) ∨
      (parser.mode.InBody ∧ headerText parser.mode line = endPatchMarker ∧
        SectionComplete parser ∧ parser' = { parser with mode := .endedPatch }) := by
  cases h with
  | beginPatch hmode hline => cases hended
  | handled hbody h =>
    generalize htext : headerText parser.mode line = text at h
    cases h with
    | environmentId hmode =>
      rw [hmode] at hended
      cases hended
    | endPatch hend hcomplete => exact .inr ⟨hbody, hend, hcomplete, rfl⟩
    | hunk hheader hcomplete => cases hheader <;> cases hended
  | addLine hmode hlast hline | update hmode hlast h =>
    exact absurd (hmode.symm.trans hended) (by simp)
  | blank hmode hline => exact .inl ⟨hmode, hline, rfl⟩

/-- An unterminated `*** End Patch` ends the patch in every mode. -/
theorem finish_of_endPatch (hline : trim parser.lineBuffer = endPatchMarker)
    (hcomplete : SectionComplete parser) :
    parser.finish = .ok { parser with
      lineBuffer := [], lineNumber := parser.lineNumber + 1, mode := .endedPatch } := by
  have hne : parser.lineBuffer.isEmpty = false := by
    cases hbuffer : parser.lineBuffer with
    | nil =>
      rw [hbuffer] at hline
      cases hline
    | cons _ _ => rfl
  have hensure : ensureUpdateHunkIsNotEmpty
      { parser with lineBuffer := [], lineNumber := parser.lineNumber + 1 }
      (trim parser.lineBuffer) = .ok () :=
    ensureUpdateHunkIsNotEmpty_eq_ok_iff.mpr hcomplete
  unfold finish finishLastLine
  dsimp only
  rw [hne, if_pos hline, hensure]
  rfl

/-- The ways in which a patch is complete. -/
theorem finish_eq_ok (h : parser.finish = .ok parser') :
    (parser.lineBuffer = [] ∧ parser.mode = .endedPatch ∧ parser' = parser) ∨
      (trim parser.lineBuffer = endPatchMarker ∧ SectionComplete parser ∧
        parser'.hunks = parser.hunks ∧ parser'.environmentId = parser.environmentId) ∨
      (parser.mode = .endedPatch ∧ trim parser.lineBuffer = [] ∧
        parser'.hunks = parser.hunks ∧ parser'.environmentId = parser.environmentId) := by
  obtain ⟨hlast, hended⟩ : parser.finishLastLine = .ok parser' ∧ parser'.mode = .endedPatch := by
    obtain ⟨last, hlast, h⟩ := bind_eq_ok h
    split_ifs at h with hmode
    cases h
    exact ⟨hlast, hmode⟩
  unfold finishLastLine at hlast
  by_cases hempty : parser.lineBuffer.isEmpty = true
  · rw [if_pos hempty] at hlast
    cases hlast
    exact .inl ⟨List.isEmpty_iff.mp hempty, hended, rfl⟩
  rw [if_neg hempty] at hlast
  by_cases hline : trim parser.lineBuffer = endPatchMarker
  · rw [if_pos hline] at hlast
    obtain ⟨_, hensure, hlast⟩ := bind_eq_ok hlast
    cases hlast
    have hcomplete := ensureUpdateHunkIsNotEmpty_eq_ok_iff.mp hensure
    exact .inr (.inl ⟨hline, hcomplete, rfl, rfl⟩)
  · rw [if_neg hline] at hlast
    rcases (processLine_eq_ok_iff.mp hlast).of_endedPatch hended with
      ⟨hmode, hblank, rfl⟩ | ⟨hbody, htext, -, -⟩
    · exact .inr (.inr ⟨hmode, hblank, rfl, rfl⟩)
    · exact absurd (trim_of_headerText htext) hline

end Codex.ApplyPatch
