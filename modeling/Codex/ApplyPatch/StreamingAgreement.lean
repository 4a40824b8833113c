import Codex.ApplyPatch.ParserSimulation

/-!
# The stream and the whole text

A patch is read twice: as it arrives, by `push_delta` and `finish`, and afterwards as
a whole, by `parse_patch`.  A stream that is accepted has the form `PatchLines`: a
first line, lines between, the end of the patch and blank lines.  `parse_patch`
finds the same lines between the two markers, and the simulation compares the runs.

The two agree except on two kinds of text (`ReadsAlike`).  A line of contents that
ends in two carriage returns loses one of them in the stream and both in
`parse_patch`; and `finish` accepts an unterminated `*** End Patch` without the
beginning of a patch, which `parse_patch` rejects.

`stream_agrees_with_parsePatch_iff` is exact, and `stream_differs_from_parsePatch` has one text of
either kind.  That the two runs stay alike is `Similar.acceptLines`; that they end alike only if
no text was lost on the way is seen from the weight of the states (`Similar.weight`).
-/

namespace Codex.ApplyPatch

open Text StreamingPatchParser Section List

/-! ## The form of an accepted stream -/

/-- After the first line. -/
def started : StreamingPatchParser := { new with mode := .startedPatch, lineNumber := 1 }

/-- The lines of a patch, as they stand in the text: the begin marker, the lines between,
the end marker and blank lines. -/
structure PatchLines (lines : List Str) (first : Str) (between : List Str) (last : Str)
    (blanks : List Str) : Prop where
  eq : lines = first :: between ++ last :: blanks
  first : trim first = beginPatchMarker
  last : trim last = endPatchMarker
  blanks : ∀ blank ∈ blanks, trim blank = []

/-- A blank line after the patch is no contents and stays outside. -/
theorem Section.outside_of_blank {line : Str} (h : trim line = []) :
    outside.crContent line = 0 ∧ outside.next line = .outside := by
  constructor
  · apply crContent_of_not_isContent
    cases line with
    | nil => rfl
    | cons c text =>
      have hc : c ≠ '+' := by
        rintro rfl
        exact absurd (trim_eq_nil_iff.mp h '+' (by simp)) (by decide)
      simp [isContent, hc]
  · rw [next, h]
    rfl

variable {parser next : StreamingPatchParser}

/-- After the end of the patch only blank lines are accepted. -/
theorem acceptLines_of_endedPatch {lines : List Str} (hmode : parser.mode = .endedPatch)
    (h : acceptLines parser lines = .ok next) :
    (∀ line ∈ lines, trim line = []) ∧ next.hunks = parser.hunks ∧
      next.environmentId = parser.environmentId ∧ outside.crContents lines = 0 := by
  induction lines generalizing parser with
  | nil =>
    cases h
    exact ⟨by simp, rfl, rfl, rfl⟩
  | cons line rest ih =>
    obtain ⟨middle, hline, hrest⟩ := acceptLines_cons_eq_ok.mp h
    have hstep := acceptLine_eq_ok_iff.mp hline
    cases hstep with
    | beginPatch hnot => exact absurd (hmode.symm.trans hnot) (by simp)
    | handled hbody =>
      rw [hmode] at hbody
      exact hbody.elim
    | addLine hadd => exact absurd (hmode.symm.trans hadd) (by simp)
    | update hupdate => exact absurd (hmode.symm.trans hupdate) (by simp)
    | blank _ hblank =>
      have hmode' : { parser with lineNumber := parser.lineNumber + 1 }.mode = .endedPatch :=
        hmode
      obtain ⟨hblanks, hhunks, henvironment, hcount⟩ := ih hmode' hrest
      obtain ⟨hcontent, hnext⟩ := outside_of_blank hblank
      refine ⟨forall_mem_cons.mpr ⟨hblank, hblanks⟩, hhunks, henvironment, ?_⟩
      rw [crContents_cons, hcontent, hnext, hcount]

/-- A run that ends the patch does so at one line, with blank lines after it. -/
theorem acceptLines_endPatch {lines : List Str} (hmode : parser.mode ≠ .endedPatch)
    (h : acceptLines parser lines = .ok next) (hended : next.mode = .endedPatch) :
    ∃ between last blanks middle, lines = between ++ last :: blanks ∧
      acceptLines parser between = .ok middle ∧ SectionComplete middle ∧
      trim last = endPatchMarker ∧ (∀ blank ∈ blanks, trim blank = []) ∧
      next.hunks = middle.hunks ∧ next.environmentId = middle.environmentId ∧
      (of parser).crContents lines = (of parser).crContents between := by
  induction lines generalizing parser with
  | nil =>
    cases h
    exact absurd hended hmode
  | cons line rest ih =>
    obtain ⟨second, hline, hrest⟩ := acceptLines_cons_eq_ok.mp h
    have hstep := acceptLine_eq_ok_iff.mp hline
    have hof := of_step hstep
    change of second = (of parser).next line at hof
    by_cases hsecond : second.mode = .endedPatch
    · -- this line ends the patch
      rcases hstep.of_endedPatch hsecond with ⟨hbefore, -, -⟩ | ⟨hbody, htext, hcomplete, rfl⟩
      · exact absurd hbefore hmode
      obtain ⟨hblanks, hhunks, henvironment, hcount⟩ := acceptLines_of_endedPatch hsecond hrest
      have hcontent : (of parser).isContent line = false :=
        isContent_of_headerText htext
      have houtside := of_eq_outside
        (fun hunkLineNumber hupdate => by cases hsecond.symm.trans hupdate)
      refine ⟨[], line, rest, parser, rfl, rfl, hcomplete, trim_of_headerText htext, hblanks,
        hhunks, henvironment, ?_⟩
      rw [crContents_cons, crContent_of_not_isContent hcontent, ← hof, houtside, hcount]
      rfl
    · obtain ⟨between, last, blanks, middle, rfl, hrun, hcomplete, hlast, hblanks, hhunks,
        henvironment, hcount⟩ := ih hsecond hrest
      refine ⟨line :: between, last, blanks, middle, rfl,
        acceptLines_cons_eq_ok.mpr ⟨second, hline, hrun⟩, hcomplete, hlast, hblanks, hhunks,
        henvironment, ?_⟩
      rw [crContents_cons, ← hof, hcount, hof, ← crContents_cons]

/-- The first line is the begin marker, and no contents. -/
theorem acceptLine_new {line : Str} (h : acceptLine new line = .ok next) :
    trim line = beginPatchMarker ∧ next = started ∧
      outside.crContent line = 0 ∧ outside.next line = .outside := by
  cases acceptLine_eq_ok_iff.mp h with
  | beginPatch hmode hline =>
    refine ⟨hline, rfl, crContent_of_not_isContent ?_, ?_⟩
    · simpa [isContent] using head?_ne_plus_of_trim hline
    · rw [Section.next, hline]
      rfl
  | handled hbody => exact hbody.elim
  | addLine hmode => cases hmode
  | update hmode => cases hmode
  | blank hmode => cases hmode

/-- The text is an end marker without terminator and nothing else. -/
def LoneEndPatch (text : Str) : Prop := '\n' ∉ text ∧ trim text = endPatchMarker

/-- The terminated lines of a text, as `push_delta` takes their terminators off. -/
def terminatedLines (text : Str) : List Str := (text.splitOn '\n').dropLast.map stripCr

/-- The text is read alike in deltas and as a whole: it is not a lone end marker, and no
line of contents has a carriage return left at its end. -/
def ReadsAlike (text : Str) : Prop :=
  ¬ LoneEndPatch text ∧ outside.crContents (terminatedLines text) = 0

instance (text : Str) : Decidable (ReadsAlike text) :=
  inferInstanceAs (Decidable (¬ ('\n' ∉ text ∧ trim text = endPatchMarker) ∧
    outside.crContents (terminatedLines text) = 0))

theorem exists_splitOn_eq (text : Str) :
    ∃ lines last, text.splitOn '\n' = lines ++ [last] ∧
      terminatedLines text = lines.map stripCr := by
  have hne : text.splitOn '\n' ≠ [] := splitOnP_ne_nil _ _
  refine ⟨_, _, (dropLast_append_getLast hne).symm, rfl⟩

/-- The text is a patch, and the lines between its markers lead to the hunks and the
environment id of `parser`. -/
def HoldsPatch (text : Str) (parser : StreamingPatchParser) : Prop :=
  ∃ first between last blanks middle, PatchLines (text.splitOn '\n') first between last blanks ∧
    acceptLines started (between.map stripCr) = .ok middle ∧ SectionComplete middle ∧
    parser.hunks = middle.hunks ∧ parser.environmentId = middle.environmentId ∧
    outside.crContents (terminatedLines text) = outside.crContents (between.map stripCr)

/-- A patch that a terminated line ended, with a blank rest in the buffer. -/
theorem holdsPatch_of_endedPatch {text first unfinished : Str} {rest : List Str}
    {reached : StreamingPatchParser} (hsplit : text.splitOn '\n' = first :: rest ++ [unfinished])
    (hbegin : trim first = beginPatchMarker)
    (hrest : acceptLines started (rest.map stripCr) = .ok reached)
    (hcount : outside.crContents (terminatedLines text) =
      outside.crContents (rest.map stripCr)) (hmode : reached.mode = .endedPatch)
    (hunfinished : trim unfinished = []) (hhunks : parser.hunks = reached.hunks)
    (henvironment : parser.environmentId = reached.environmentId) : HoldsPatch text parser := by
  obtain ⟨between', last', blanks', middle, hlines, hbetween, hcomplete, hlast, hblanks,
    hhunks', henvironment', hcount'⟩ := acceptLines_endPatch (by simp [started]) hrest hmode
  obtain ⟨between, rest', rfl, rfl, hrest'⟩ := map_eq_append_iff.mp hlines
  obtain ⟨last, blanks, rfl, rfl, rfl⟩ := map_eq_cons_iff.mp hrest'
  refine ⟨first, between, last, blanks ++ [unfinished], middle,
    ⟨by rw [hsplit]; simp, hbegin, by rwa [trim_stripCr] at hlast, ?_⟩, hbetween,
    hcomplete, hhunks.trans hhunks', henvironment.trans henvironment', hcount.trans hcount'⟩
  intro blank hblank
  rcases mem_append.mp hblank with hblank | hblank
  · rw [← trim_stripCr]
    exact hblanks _ (mem_map_of_mem hblank)
  · rw [mem_singleton.mp hblank]
    exact hunfinished

/-- **Form of a stream.**  The text of an accepted stream is a lone end marker or a patch. -/
theorem stream_eq_ok {deltas : List Str} (h : stream deltas = .ok parser) :
    LoneEndPatch deltas.flatten ∨ HoldsPatch deltas.flatten parser := by
  -- how the text is split into deltas does not matter
  rw [stream, foldlM_pushDelta] at h
  generalize deltas.flatten = text at h ⊢
  obtain ⟨lines, unfinished, hsplit, hterminated⟩ := exists_splitOn_eq text
  rw [pushDelta_new hsplit] at h
  obtain ⟨pushed, hpushed, h⟩ := bind_eq_ok h
  obtain ⟨reached, hrun, rfl⟩ := map_eq_ok hpushed
  have hfinish := finish_eq_ok h
  cases lines with
  | nil =>
    cases hrun
    have htext : text = unfinished := by
      have hjoin : [('\n' : Char)].intercalate (text.splitOn '\n') = text :=
        intercalate_splitOn '\n'
      rw [← hjoin, hsplit]
      simp
    have hnewline : '\n' ∉ text := by
      apply notMem_of_mem_splitOn (s := text)
      rw [hsplit, htext]
      simp
    rcases hfinish with ⟨-, hmode, -⟩ | ⟨hend, -, -, -⟩ | ⟨hmode, -, -, -⟩
    · cases hmode
    · exact .inl ⟨hnewline, htext ▸ hend⟩
    · cases hmode
  | cons first rest =>
    obtain ⟨next, hfirst, hrest⟩ := acceptLines_cons_eq_ok.mp hrun
    obtain ⟨hbegin, rfl, hcontent, houtside⟩ := acceptLine_new hfirst
    rw [trim_stripCr] at hbegin
    have hcount : outside.crContents (terminatedLines text) =
        outside.crContents (rest.map stripCr) := by
      rw [hterminated, map_cons, crContents_cons, hcontent, houtside, Nat.zero_add]
    right
    rcases hfinish with ⟨hbuffer, hmode, rfl⟩ | ⟨hend, hcomplete, hhunks, henvironment⟩ |
      ⟨hmode, hblank, hhunks, henvironment⟩
    · have hunfinished : unfinished = [] := hbuffer
      exact holdsPatch_of_endedPatch hsplit hbegin hrest hcount hmode
        (by rw [hunfinished]; rfl) rfl rfl
    · exact ⟨first, rest, unfinished, [], reached, ⟨hsplit, hbegin, hend, by simp⟩, hrest,
        hcomplete, hhunks, henvironment, hcount⟩
    · exact holdsPatch_of_endedPatch hsplit hbegin hrest hcount hmode hblank hhunks henvironment

/-! ## The whole text -/

theorem checkPatchBoundariesLenient_eq {first last : Str} {between : List Str}
    (hfirst : trim first = beginPatchMarker) (hlast : trim last = endPatchMarker) :
    checkPatchBoundariesLenient (first :: between ++ [last]) =
      .ok (first :: between ++ [last]) := by
  have hstrict : checkPatchBoundariesStrict (first :: between ++ [last]) =
      .ok (first :: between ++ [last]) := by
    unfold checkPatchBoundariesStrict checkStartAndEndLinesStrict
    rw [getLast?_concat, cons_append, head?_cons, Option.map_some, Option.map_some, hfirst, hlast]
    rfl
  unfold checkPatchBoundariesLenient
  rw [hstrict]

/-- **Form of a whole text.**  `parse_patch` runs the lines between the markers, with one
more carriage return taken off. -/
theorem parsePatch_of_patchLines {text first last : Str} {between blanks : List Str}
    {middle : StreamingPatchParser}
    (h : PatchLines (text.splitOn '\n') first between last blanks)
    (hrun : acceptLines started ((between.map stripCr).map stripCr) = .ok middle)
    (hcomplete : SectionComplete middle) :
    ∃ args, parsePatch text = .ok args ∧ args.hunks = middle.hunks ∧
      args.environmentId = middle.environmentId := by
  have hsplit : (trim text).splitOn '\n' = trimStart first :: between ++ [trimEnd last] :=
    splitOn_trim h.eq (by rw [h.first]; decide) (by rw [h.last]; decide) h.blanks
  have hlast : trim (trimEnd last) = endPatchMarker := by rw [trim_trimEnd, h.last]
  have hne : trimEnd last ≠ [] := by
    intro hnil
    rw [hnil] at hlast
    cases hlast
  have hfirst : trim (stripCr (trimStart first)) = beginPatchMarker := by
    rw [trim_stripCr, trim_trimStart, h.first]
  have hlines : lines (trim text) =
      stripCr (trimStart first) :: between.map stripCr ++ [trimEnd last] := by
    rw [lines, hsplit, getLast?_concat, dropLast_concat]
    simp [hne]
  have hpieces : ∀ piece ∈ stripCr (trimStart first) :: between.map stripCr ++ [trimEnd last],
      '\n' ∉ piece := by
    have hbefore : ∀ piece ∈ trimStart first :: between ++ [trimEnd last], '\n' ∉ piece := by
      intro piece hpiece
      rw [← hsplit] at hpiece
      exact notMem_of_mem_splitOn hpiece
    intro piece hpiece
    rw [← map_cons (f := stripCr)] at hpiece
    rcases mem_append.mp hpiece with hpiece | hpiece
    · obtain ⟨line, hline, rfl⟩ := mem_map.mp hpiece
      exact notMem_stripCr (hbefore line (mem_append_left _ hline))
    · exact hbefore piece (mem_append_right _ hpiece)
  have hjoin : (join ['\n']
      (stripCr (trimStart first) :: between.map stripCr ++ [trimEnd last])).splitOn '\n' =
        stripCr (trimStart first) :: between.map stripCr ++ [trimEnd last] :=
    splitOn_intercalate '\n' hpieces (by simp)
  have hbegin : acceptLine new (stripCr (stripCr (trimStart first))) = .ok started :=
    acceptLine_eq_ok_iff.mpr (.beginPatch rfl (by rw [trim_stripCr, hfirst]))
  have hpush := pushDelta_new hjoin
  rw [map_cons, acceptLines_cons_eq_ok.mpr ⟨started, hbegin, hrun⟩] at hpush
  have hfinish : finish { middle with lineBuffer := trimEnd last } = _ :=
    finish_of_endPatch hlast hcomplete
  unfold parsePatch parsePatchText
  rw [hlines, checkPatchBoundariesLenient_eq hfirst hlast]
  change ∃ args, (do
    let parser ← new.pushDelta (join ['\n'] _)
    let parser ← parser.finish
    return (⟨_, parser.hunks, none, parser.environmentId⟩ : ApplyPatchArgs)) = Except.ok args ∧ _
  rw [hpush]
  change ∃ args, (do
    let parser ← finish { middle with lineBuffer := trimEnd last }
    return (⟨_, parser.hunks, none, parser.environmentId⟩ : ApplyPatchArgs)) = Except.ok args ∧ _
  rw [hfinish]
  exact ⟨_, rfl, rfl, rfl⟩

theorem parsePatch_of_loneEndPatch {text : Str} (h : LoneEndPatch text) (args : ApplyPatchArgs) :
    parsePatch text ≠ .ok args := by
  have hlines : checkPatchBoundariesLenient (lines endPatchMarker) = .error missingBegin := by
    decide
  unfold parsePatch parsePatchText
  rw [h.2]
  exact fun herror => by cases herror

/-! ## Agreement -/

/-- **Agreement of the two readings.**  If a stream is accepted, however it was split into
deltas, then `parse_patch` accepts its text with the same hunks and the same environment id
exactly if the text is one that is read alike. -/
theorem stream_agrees_with_parsePatch_iff {deltas : List Str} {parser : StreamingPatchParser}
    (h : stream deltas = .ok parser) :
    (∃ args, parsePatch deltas.flatten = .ok args ∧ args.hunks = parser.hunks ∧
      args.environmentId = parser.environmentId) ↔ ReadsAlike deltas.flatten := by
  rcases stream_eq_ok h with hlone | ⟨first, between, last, blanks, middle, hlines, hrun, hcomplete,
    hhunks, henvironment, hcount⟩
  · constructor
    · rintro ⟨args, hparse, -⟩
      exact absurd hparse (parsePatch_of_loneEndPatch hlone args)
    · rintro ⟨hnot, -⟩
      exact absurd hlone hnot
  -- the run of the whole text, and the number of lines it reads differently
  have hstart : Similar 0 started started := ⟨rfl, rfl, rfl, rfl, .nil, le_rfl, fun _ => rfl⟩
  obtain ⟨middle', hrun', hsimilar⟩ := hstart.acceptLines hrun
  obtain ⟨args', hparse', hhunks', henvironment'⟩ :=
    parsePatch_of_patchLines hlines hrun' (hsimilar.sectionComplete hcomplete)
  have hoff : of started = .outside := rfl
  rw [hoff, Nat.zero_add, ← hcount] at hsimilar
  constructor
  · rintro ⟨args, hparse, hsame, -⟩
    obtain rfl : args' = args := Except.ok.inj (hparse'.symm.trans hparse)
    refine ⟨fun hlone => parsePatch_of_loneEndPatch hlone args' hparse', ?_⟩
    -- each line read differently weighs more in the stream
    have hweight := hsimilar.weight
    rw [← hhunks, ← hsame, hhunks'] at hweight
    omega
  · rintro ⟨-, hnone⟩
    refine ⟨args', hparse', ?_, ?_⟩
    · rw [hhunks', hhunks, hsimilar.eq hnone]
    · rw [henvironment', henvironment, hsimilar.environmentId]

/-- An update in three deltas, with carriage returns before some of the line feeds. -/
def crlfDeltas : List Str :=
  ["*** Begin Patch\r\n*** Update File: a.txt\n@@\n-o".toList, "ld\r".toList,
    "\n+new\n \r\n*** End Patch\r\n ".toList]

def crlfParser : StreamingPatchParser :=
  ⟨[], .endedPatch,
    [.updateFile "a.txt".toList none
      [⟨none, ["old".toList, []], ["new".toList, []], [(1, 1)], false⟩]], none, 8⟩

theorem stream_agrees_with_parsePatch_crlf :
    stream crlfDeltas = .ok crlfParser ∧
      ∃ args, parsePatch crlfDeltas.flatten = .ok args ∧ args.hunks = crlfParser.hunks ∧
        args.environmentId = crlfParser.environmentId := by
  have hstream : stream crlfDeltas = .ok crlfParser := by decide
  have halike : ReadsAlike crlfDeltas.flatten := by decide
  exact ⟨hstream, (stream_agrees_with_parsePatch_iff hstream).mpr halike⟩

/-- An added line that ends in two carriage returns, and an end marker on its own. -/
theorem stream_differs_from_parsePatch :
    (∃ parser args,
      stream ["*** Begin Patch\n*** Add File: a\n+x\r\r\n*** End Patch\n".toList] = .ok parser ∧
      parsePatch "*** Begin Patch\n*** Add File: a\n+x\r\r\n*** End Patch\n".toList = .ok args ∧
      parser.hunks = [.addFile "a".toList "x\r\n".toList] ∧
      args.hunks = [.addFile "a".toList "x\n".toList]) ∧
    (∃ parser, stream ["*** End Patch".toList] = .ok parser ∧
      parsePatch "*** End Patch".toList = .error missingBegin) := by
  refine ⟨⟨⟨[], .endedPatch, [.addFile "a".toList "x\r\n".toList], none, 4⟩,
    ⟨"*** Begin Patch\n*** Add File: a\n+x\r\n*** End Patch".toList,
      [.addFile "a".toList "x\n".toList], none, none⟩, by decide, by decide, rfl, rfl⟩,
    ⟨[], .endedPatch, [], none, 1⟩, by decide, by decide⟩

end Codex.ApplyPatch
