import Codex.ApplyPatch.StreamingAgreement

/-!
# Writing a patch and reading it back

`renderPatch` writes hunks by the grammar that the parser documents.  Reading the
text back gives the hunks: each line that is written has its own way of being
accepted (`Step`), and the state after the lines of a chunk, of a section and of the
whole patch is computed exactly.

Content lines may look like markers; they never are, since each has its sign in
front.  Names stand at the end of a marker's line and so lose whitespace there, and
an environment id loses it on both sides.

`parsePatch_renderPatch` needs the hunks and the environment id to be well formed;
`parsePatch_renderPatch_altered` shows what else would come back.  The lines of the hunks are read
by `acceptLines_hunks`, by induction on the hunks from a state in which the last one is complete.
-/

namespace Codex.ApplyPatch

open Text StreamingPatchParser UpdateFileChunk List

/-! ## Writing -/

/-- Removed lines, then added lines. -/
def changeLines (removed added : List Str) : List Str :=
  removed.map ('-' :: ·) ++ added.map ('+' :: ·)

namespace UpdateFileChunk

/-- The lines of a chunk from the given places in its old and its new lines on: the
changes before the next context line, that line, and the rest. -/
def bodyLines (chunk : UpdateFileChunk) : ℕ → ℕ → List (ℕ × ℕ) → List Str
  | old, new, [] => changeLines (chunk.oldLines.drop old) (chunk.newLines.drop new)
  | old, new, (contextOld, contextNew) :: rest =>
    changeLines ((chunk.oldLines.take contextOld).drop old)
        ((chunk.newLines.take contextNew).drop new) ++
      (' ' :: chunk.oldLines.getD contextOld []) ::
        chunk.bodyLines (contextOld + 1) (contextNew + 1) rest

def contextHeader : Option Str → Str
  | none => emptyChangeContextMarker
  | some changeContext => changeContextMarker ++ changeContext

def render (chunk : UpdateFileChunk) : List Str :=
  contextHeader chunk.changeContext :: chunk.bodyLines 0 0 chunk.contextLineIndices ++
    if chunk.isEndOfFile then [eofMarker] else []

end UpdateFileChunk

/-- The lines of an added file, each ended by a line feed. -/
def addedLines (contents : Str) : List Str := (contents.splitOn '\n').dropLast

def Hunk.render : Hunk → List Str
  | .addFile path contents => (addFileMarker ++ path) :: (addedLines contents).map ('+' :: ·)
  | .deleteFile path => [deleteFileMarker ++ path]
  | .updateFile path movePath chunks =>
    (updateFileMarker ++ path) :: (movePath.map (moveToMarker ++ ·)).toList ++
      chunks.flatMap UpdateFileChunk.render

def renderEnvironmentId (environmentId : Option Str) : List Str :=
  (environmentId.map ("*** Environment ID: ".toList ++ ·)).toList

/-- The lines between the markers of the patch. -/
def renderBetween (hunks : List Hunk) (environmentId : Option Str) : List Str :=
  renderEnvironmentId environmentId ++ hunks.flatMap Hunk.render

/-- A patch by the grammar; the line feed after the last line is optional. -/
def renderPatch (hunks : List Hunk) (environmentId : Option Str) (lastTerminated : Bool) : Str :=
  Text.join ['\n'] (beginPatchMarker :: renderBetween hunks environmentId ++
    endPatchMarker :: if lastTerminated then [[]] else [])

/-! ## Well-formed hunks -/

/-- A name that can stand at the end of a marker's line. -/
structure IsName (name : Str) : Prop where
  ne_nil : name ≠ []
  newline : '\n' ∉ name
  trimmed : trimEnd name = name

/-- A line of contents. -/
structure IsContentLine (line : Str) : Prop where
  newline : '\n' ∉ line
  carriageReturn : line.getLast? ≠ some '\r'

structure UpdateFileChunk.WellFormed (chunk : UpdateFileChunk) : Prop where
  changeContext : ∀ changeContext, chunk.changeContext = some changeContext → IsName changeContext
  oldLines : ∀ line ∈ chunk.oldLines, IsContentLine line
  newLines : ∀ line ∈ chunk.newLines, IsContentLine line
  hasLine : chunk.hasNoLines = false
  increasing : chunk.contextLineIndices.Pairwise fun i j => i.1 < j.1 ∧ i.2 < j.2
  equalLines : ∀ i ∈ chunk.contextLineIndices, ∃ line,
    chunk.oldLines[i.1]? = some line ∧ chunk.newLines[i.2]? = some line

/-- The contents of an added file are lines, each ended by a line feed. -/
structure IsContents (contents : Str) : Prop where
  terminated : (contents.splitOn '\n').getLast? = some []
  lines : ∀ line ∈ addedLines contents, IsContentLine line

def Hunk.WellFormed : Hunk → Prop
  | .addFile path contents => IsName path ∧ IsContents contents
  | .deleteFile path => IsName path
  | .updateFile path movePath chunks =>
    IsName path ∧ (∀ path', movePath = some path' → IsName path') ∧ chunks ≠ [] ∧
      ∀ chunk ∈ chunks, chunk.WellFormed

/-- An environment id that is read as it is written. -/
structure IsEnvironmentId (id : Str) : Prop extends IsName id where
  trimmedStart : trimStart id = id

/-! ## The lines of a chunk -/

/-- The effect of chunk lines one after the other. -/
def pushChunkLines (chunk : UpdateFileChunk) (lines : List Str) : Option UpdateFileChunk :=
  lines.foldlM (fun chunk line => (chunkLine line).map (· chunk)) chunk

variable {chunk : UpdateFileChunk}

theorem pushChunkLines_cons {line : Str} {lines : List Str} {f : UpdateFileChunk → UpdateFileChunk}
    (h : chunkLine line = some f) :
    pushChunkLines chunk (line :: lines) = pushChunkLines (f chunk) lines := by
  unfold pushChunkLines
  rw [foldlM_cons, h]
  rfl

theorem pushChunkLines_append {middle : UpdateFileChunk} {first second : List Str}
    (h : pushChunkLines chunk first = some middle) :
    pushChunkLines chunk (first ++ second) = pushChunkLines middle second := by
  unfold pushChunkLines at h ⊢
  rw [foldlM_append, h]
  rfl

theorem pushChunkLines_removed (chunk : UpdateFileChunk) (removed : List Str) :
    pushChunkLines chunk (removed.map ('-' :: ·)) =
      some { chunk with oldLines := chunk.oldLines ++ removed } := by
  induction removed generalizing chunk with
  | nil =>
    rw [append_nil]
    rfl
  | cons line rest ih =>
    rw [map_cons, pushChunkLines_cons rfl, ih]
    simp

theorem pushChunkLines_added (chunk : UpdateFileChunk) (added : List Str) :
    pushChunkLines chunk (added.map ('+' :: ·)) =
      some { chunk with newLines := chunk.newLines ++ added } := by
  induction added generalizing chunk with
  | nil =>
    rw [append_nil]
    rfl
  | cons line rest ih =>
    rw [map_cons, pushChunkLines_cons rfl, ih]
    simp

theorem pushChunkLines_changeLines (chunk : UpdateFileChunk) (removed added : List Str) :
    pushChunkLines chunk (changeLines removed added) = some { chunk with
        oldLines := chunk.oldLines ++ removed, newLines := chunk.newLines ++ added } := by
  unfold changeLines
  rw [pushChunkLines_append (pushChunkLines_removed chunk removed), pushChunkLines_added]

theorem take_append_drop_take {l : List Str} {i j : ℕ} (h : i ≤ j) :
    l.take i ++ (l.take j).drop i = l.take j := by
  have hsplit := take_append_drop i (l.take j)
  rwa [take_take, Nat.min_eq_left h] at hsplit

theorem take_succ_of_getElem? {l : List Str} {i : ℕ} {line : Str} (h : l[i]? = some line) :
    l.take i ++ [line] = l.take (i + 1) := by
  rw [take_add_one, h]
  rfl

/-- **The lines of a chunk.**  Reading them completes the old and the new lines, and
finds the context lines where they were. -/
theorem pushChunkLines_bodyLines {indices : List (ℕ × ℕ)}
    (hincreasing : indices.Pairwise fun i j => i.1 < j.1 ∧ i.2 < j.2)
    (hequal : ∀ i ∈ indices, ∃ line,
      chunk.oldLines[i.1]? = some line ∧ chunk.newLines[i.2]? = some line) {old new : ℕ}
    (hfrom : ∀ i ∈ indices, old ≤ i.1 ∧ new ≤ i.2) {reached : UpdateFileChunk}
    (hold : reached.oldLines = chunk.oldLines.take old)
    (hnew : reached.newLines = chunk.newLines.take new) :
    pushChunkLines reached (chunk.bodyLines old new indices) = some { reached with
        oldLines := chunk.oldLines
        newLines := chunk.newLines
        contextLineIndices := reached.contextLineIndices ++ indices } := by
  induction indices generalizing old new reached with
  | nil =>
    rw [bodyLines, pushChunkLines_changeLines, hold, hnew,
      take_append_drop, take_append_drop, append_nil]
  | cons index rest ih =>
    obtain ⟨contextOld, contextNew⟩ := index
    obtain ⟨hnext, hrest⟩ := pairwise_cons.mp hincreasing
    obtain ⟨line, hlineOld, hlineNew⟩ := hequal (contextOld, contextNew) (by simp)
    obtain ⟨hfromOld, hfromNew⟩ := hfrom (contextOld, contextNew) (by simp)
    obtain ⟨hltOld, -⟩ := List.getElem?_eq_some_iff.mp hlineOld
    obtain ⟨hltNew, -⟩ := List.getElem?_eq_some_iff.mp hlineNew
    have hgetD : chunk.oldLines.getD contextOld [] = line := by
      rw [getD_eq_getElem?_getD, hlineOld]
      rfl
    rw [bodyLines, pushChunkLines_append (pushChunkLines_changeLines _ _ _),
      pushChunkLines_cons rfl, hgetD, hold, hnew, take_append_drop_take hfromOld,
      take_append_drop_take hfromNew]
    -- the context line goes to both sides, where the indices say
    rw [ih hrest (fun i hi => hequal i (mem_cons_of_mem _ hi))
      (fun i hi => hnext i hi) (take_succ_of_getElem? hlineOld) (take_succ_of_getElem? hlineNew)]
    simp only [pushContextLine, length_take, Nat.min_eq_left hltOld.le,
      Nat.min_eq_left hltNew.le, List.append_assoc, singleton_append]

/-! ## Names at the end of a line -/

variable {name : Str}

theorem IsName.trimEnd_append (h : IsName name) (marker : Str) :
    trimEnd (marker ++ name) = marker ++ name := by
  rw [trimEnd_append_of_ne_nil (by rw [h.trimmed]; exact h.ne_nil), h.trimmed]

/-- In every mode a marker's line is found as it was written. -/
theorem IsName.headerText_append (h : IsName name) (mode : StreamingParserMode) {marker rest : Str}
    (hmarker : marker = '*' :: rest) : headerText mode (marker ++ name) = marker ++ name := by
  have htrimEnd := h.trimEnd_append marker
  cases mode with
  | updateFile hunkLineNumber => exact htrimEnd
  | _ =>
    rw [hmarker] at htrimEnd ⊢
    exact trim_of_trimEnd htrimEnd

/-! ## Sections -/

section Update

variable (hunks : List Hunk) (hunkLineNumber : ℕ) (path : Str) (environmentId : Option Str)

/-- In an update section. -/
def updating (movePath : Option Str) (chunks : List UpdateFileChunk) (lineNumber : ℕ) :
    StreamingPatchParser :=
  ⟨[], .updateFile hunkLineNumber, hunks ++ [.updateFile path movePath chunks], environmentId,
    lineNumber⟩

variable {hunks hunkLineNumber path environmentId}
variable {movePath movePath' : Option Str} {chunks chunks' : List UpdateFileChunk} {lineNumber : ℕ}

theorem acceptLine_updating {line : Str} (h : UpdateStep line movePath chunks movePath' chunks') :
    acceptLine (updating hunks hunkLineNumber path environmentId movePath chunks lineNumber) line =
      .ok (updating hunks hunkLineNumber path environmentId movePath' chunks' (lineNumber + 1)) := by
  apply acceptLine_eq_ok_iff.mpr
  have hset : updating hunks hunkLineNumber path environmentId movePath' chunks' (lineNumber + 1) =
      (updating hunks hunkLineNumber path environmentId movePath chunks
        (lineNumber + 1)).setLastHunk (.updateFile path movePath' chunks') := by
    simp [setLastHunk, updating]
  rw [hset]
  exact .update rfl getLast?_concat h

/-- The lines of a chunk, in the parser. -/
theorem acceptLines_chunkLines {chunk' : UpdateFileChunk} {lines : List Str}
    (hended : chunk.isEndOfFile = false) (h : pushChunkLines chunk lines = some chunk') :
    acceptLines (updating hunks hunkLineNumber path environmentId movePath (chunks ++ [chunk])
      lineNumber) lines =
      .ok (updating hunks hunkLineNumber path environmentId movePath (chunks ++ [chunk'])
        (lineNumber + lines.length)) := by
  induction lines generalizing chunk lineNumber with
  | nil =>
    obtain rfl : chunk = chunk' := Option.some.inj h
    rfl
  | cons line rest ih =>
    cases hline : chunkLine line with
    | none =>
      unfold pushChunkLines at h
      rw [foldlM_cons, hline] at h
      cases h
    | some f =>
      rw [pushChunkLines_cons hline] at h
      have hafter : ¬ AfterEof (chunks ++ [chunk]) := by
        simp [AfterEof, hended]
      have hmodify : modifyLastChunk (chunks ++ [chunk]) f = chunks ++ [f chunk] := by
        simp [modifyLastChunk]
      have hstep : UpdateStep line movePath (chunks ++ [chunk]) movePath (chunks ++ [f chunk]) := by
        rw [← hmodify]
        exact .line hafter hline
      have hended' : (f chunk).isEndOfFile = false := by
        rw [Section.isEndOfFile_of_chunkLine hline, hended]
      rw [acceptLines_cons_eq_ok.mpr ⟨_, acceptLine_updating hstep, ih hended' h⟩,
        length_cons, Nat.add_right_comm, Nat.add_assoc]

/-- A chunk is read back behind the chunks before it. -/
theorem acceptLines_chunk (h : chunk.WellFormed) (hlines : lastChunkHasNoLines chunks = false)
    (lineNumber : ℕ) :
    ∃ lineNumber', acceptLines
      (updating hunks hunkLineNumber path environmentId movePath chunks lineNumber) chunk.render =
      .ok (updating hunks hunkLineNumber path environmentId movePath (chunks ++ [chunk])
        lineNumber') := by
  -- the chunk as it is after its header, and before the end of the file is marked
  let opened : UpdateFileChunk := { empty with changeContext := chunk.changeContext }
  let body : UpdateFileChunk := { chunk with isEndOfFile := false }
  have hheader : UpdateStep (contextHeader chunk.changeContext) movePath chunks
      movePath (chunks ++ [opened]) := by
    cases hcontext : chunk.changeContext with
    | none =>
      have hopened : opened = .empty := by simp only [opened, hcontext]; rfl
      rw [hopened]
      exact .emptyContext hlines (by decide)
    | some changeContext =>
      have hopened : opened = { empty with
          changeContext := some changeContext } := by simp only [opened, hcontext]
      rw [hopened]
      exact .context hlines ((h.changeContext changeContext hcontext).trimEnd_append _)
  have hbody : pushChunkLines opened (chunk.bodyLines 0 0 chunk.contextLineIndices) = some body :=
    pushChunkLines_bodyLines h.increasing h.equalLines (fun _ _ => ⟨Nat.zero_le _, Nat.zero_le _⟩)
      rfl rfl
  obtain ⟨reached, hrun⟩ : ∃ reached, acceptLines
      (updating hunks hunkLineNumber path environmentId movePath chunks lineNumber)
      (contextHeader chunk.changeContext :: chunk.bodyLines 0 0 chunk.contextLineIndices) =
      .ok (updating hunks hunkLineNumber path environmentId movePath (chunks ++ [body]) reached) :=
    ⟨_, acceptLines_cons_eq_ok.mpr
      ⟨_, acceptLine_updating hheader, acceptLines_chunkLines rfl hbody⟩⟩
  unfold render
  cases hended : chunk.isEndOfFile with
  | false =>
    have hchunk : body = chunk := by simp only [body, ← hended]
    rw [hchunk] at hrun
    rw [if_neg (by decide), append_nil]
    exact ⟨reached, hrun⟩
  | true =>
    have hmark : markEof (chunks ++ [body]) = chunks ++ [chunk] := by
      have hchunk : { body with isEndOfFile := true } = chunk := by simp only [body, ← hended]
      simp [markEof, modifyLastChunk, hchunk]
    have hstep : UpdateStep eofMarker movePath (chunks ++ [body]) movePath (chunks ++ [chunk]) := by
      rw [← hmark]
      refine .eof (by simp [AfterEof]) ?_ (by decide)
      rw [lastChunkHasNoLines, getLast?_concat]
      exact h.hasLine
    exact ⟨reached + 1, acceptLines_append_eq_ok.mpr ⟨_, hrun,
      acceptLines_cons_eq_ok.mpr ⟨_, acceptLine_updating hstep, rfl⟩⟩⟩

theorem lastChunkHasNoLines_concat (chunks : List UpdateFileChunk) (h : chunk.WellFormed) :
    lastChunkHasNoLines (chunks ++ [chunk]) = false := by
  rw [lastChunkHasNoLines, getLast?_concat]
  exact h.hasLine

/-- The chunks of a section, by induction over them. -/
theorem acceptLines_chunks {more : List UpdateFileChunk} (h : ∀ chunk ∈ more, chunk.WellFormed)
    (hlines : lastChunkHasNoLines chunks = false) (lineNumber : ℕ) :
    ∃ lineNumber', acceptLines
      (updating hunks hunkLineNumber path environmentId movePath chunks lineNumber)
        (more.flatMap render) =
      .ok (updating hunks hunkLineNumber path environmentId movePath (chunks ++ more)
        lineNumber') := by
  induction more generalizing chunks lineNumber with
  | nil =>
    rw [append_nil]
    exact ⟨lineNumber, rfl⟩
  | cons chunk rest ih =>
    have hchunk := h chunk (by simp)
    obtain ⟨middle, hfirst⟩ := acceptLines_chunk hchunk hlines lineNumber
    obtain ⟨last, hrest⟩ := ih (fun other hother => h other (mem_cons_of_mem _ hother))
      (lastChunkHasNoLines_concat chunks hchunk) middle
    rw [List.append_assoc] at hrest
    exact ⟨last, acceptLines_append_eq_ok.mpr ⟨_, hfirst, hrest⟩⟩

end Update

variable {hunks : List Hunk} {environmentId : Option Str}

/-- Added lines are appended to the contents. -/
theorem acceptLines_added {path contents : Str} (lines : List Str) (lineNumber : ℕ) :
    acceptLines ⟨[], .addFile, hunks ++ [.addFile path contents], environmentId, lineNumber⟩
      (lines.map ('+' :: ·)) =
      .ok ⟨[], .addFile, hunks ++ [.addFile path (contents ++ (lines.map (· ++ ['\n'])).flatten)],
        environmentId, lineNumber + lines.length⟩ := by
  induction lines generalizing contents lineNumber with
  | nil => simp
  | cons line rest ih =>
    have hline : acceptLine
        ⟨[], .addFile, hunks ++ [.addFile path contents], environmentId, lineNumber⟩
        ('+' :: line) =
        .ok ⟨[], .addFile, hunks ++ [.addFile path (contents ++ line ++ ['\n'])], environmentId,
          lineNumber + 1⟩ := by
      apply acceptLine_eq_ok_iff.mpr
      have hset : (⟨[], .addFile, hunks ++ [.addFile path (contents ++ line ++ ['\n'])],
          environmentId, lineNumber + 1⟩ : StreamingPatchParser) =
          setLastHunk ⟨[], .addFile, hunks ++ [.addFile path contents], environmentId,
            lineNumber + 1⟩ (.addFile path (contents ++ line ++ ['\n'])) := by
        simp [setLastHunk]
      rw [hset]
      exact .addLine rfl getLast?_concat rfl
    rw [map_cons, acceptLines_cons_eq_ok.mpr ⟨_, hline, ih (lineNumber + 1)⟩]
    simp only [map_cons, flatten_cons, length_cons, List.append_assoc]
    rw [Nat.add_right_comm, Nat.add_assoc]

theorem IsContents.eq {contents : Str} (h : IsContents contents) :
    contents = ((addedLines contents).map (· ++ ['\n'])).flatten := by
  have hjoin : [('\n' : Char)].intercalate (contents.splitOn '\n') = contents :=
    intercalate_splitOn '\n'
  have hsplit : contents.splitOn '\n' = addedLines contents ++ [[]] :=
    (dropLast_append_getLast? [] h.terminated).symm
  rw [hsplit, intercalate_append_cons] at hjoin
  simpa using hjoin.symm

/-! ## The whole patch -/

/-- Between two sections. -/
structure Ready (parser : StreamingPatchParser) : Prop where
  lineBuffer : parser.lineBuffer = []
  inBody : parser.mode.InBody
  complete : SectionComplete parser

variable {parser : StreamingPatchParser}

theorem acceptLine_header {hunk : Hunk} {marker rest : Str} {mode : StreamingParserMode}
    (h : Ready parser) (hname : IsName name) (hmarker : marker = '*' :: rest)
    (hheader : Header (parser.lineNumber + 1) (marker ++ name) hunk mode) :
    acceptLine parser (marker ++ name) =
      .ok ⟨[], mode, parser.hunks ++ [hunk], parser.environmentId, parser.lineNumber + 1⟩ := by
  apply acceptLine_eq_ok_iff.mpr
  have hhandled : Handled { parser with lineNumber := parser.lineNumber + 1 } (marker ++ name)
      { parser with
        lineNumber := parser.lineNumber + 1, hunks := parser.hunks ++ [hunk], mode } :=
    .hunk hheader h.complete
  rw [← hname.headerText_append parser.mode hmarker] at hhandled
  have hstep : Step { parser with lineNumber := parser.lineNumber + 1 } (marker ++ name) _ :=
    .handled h.inBody hhandled
  rw [h.lineBuffer] at hstep
  rw [h.lineBuffer]
  exact hstep

/-- A section that was just started or completed. -/
theorem sectionComplete_concat {mode : StreamingParserMode} {hunk : Hunk} {lineNumber : ℕ}
    (h : ∀ path movePath chunks, hunk = .updateFile path movePath chunks →
      lastChunkHasNoLines chunks = false ∧ chunks ≠ []) :
    SectionComplete ⟨[], mode, hunks ++ [hunk], environmentId, lineNumber⟩ := by
  intro path movePath chunks hlast
  rw [getLast?_concat] at hlast
  obtain ⟨hlines, hne⟩ := h path movePath chunks (Option.some.inj hlast)
  exact ⟨hlines, fun hnil => absurd hnil hne⟩

theorem acceptLines_hunk {hunk : Hunk} (h : Ready parser) (hhunk : hunk.WellFormed) :
    ∃ next, acceptLines parser hunk.render = .ok next ∧ next.hunks = parser.hunks ++ [hunk] ∧
      next.environmentId = parser.environmentId ∧ Ready next := by
  cases hunk with
  | addFile path contents =>
    obtain ⟨hpath, hcontents⟩ := hhunk
    have hheader := acceptLine_header h hpath rfl (.addFile path)
    have hlines : acceptLines ⟨[], .addFile, parser.hunks ++ [.addFile path []],
        parser.environmentId, parser.lineNumber + 1⟩ ((addedLines contents).map ('+' :: ·)) = _ :=
      acceptLines_added (addedLines contents) (parser.lineNumber + 1)
    rw [← hcontents.eq] at hlines
    refine ⟨_, acceptLines_cons_eq_ok.mpr ⟨_, hheader, hlines⟩, rfl, rfl, rfl, trivial, ?_⟩
    exact sectionComplete_concat fun _ _ _ hupdate => by cases hupdate
  | deleteFile path =>
    have hheader := acceptLine_header h hhunk rfl (.deleteFile path)
    refine ⟨_, acceptLines_cons_eq_ok.mpr ⟨_, hheader, rfl⟩, rfl, rfl, rfl, trivial, ?_⟩
    exact sectionComplete_concat fun _ _ _ hupdate => by cases hupdate
  | updateFile path movePath chunks =>
    obtain ⟨hpath, hmove, hne, hchunks⟩ := hhunk
    have hheader := acceptLine_header h hpath rfl (.updateFile path)
    -- the move destination, if there is one, comes before the first chunk
    obtain ⟨moved, hmoved⟩ : ∃ moved, acceptLines
        (updating parser.hunks (parser.lineNumber + 1) path parser.environmentId none []
          (parser.lineNumber + 1)) (movePath.map (moveToMarker ++ ·)).toList =
        .ok (updating parser.hunks (parser.lineNumber + 1) path parser.environmentId movePath []
          moved) := by
      cases movePath with
      | none => exact ⟨_, rfl⟩
      | some destination =>
        have hstep : UpdateStep (moveToMarker ++ destination) none [] (some destination) [] :=
          .moveTo ((hmove destination rfl).trimEnd_append _)
        exact ⟨_, acceptLines_cons_eq_ok.mpr ⟨_, acceptLine_updating hstep, rfl⟩⟩
    obtain ⟨last, hlast⟩ := @acceptLines_chunks parser.hunks (parser.lineNumber + 1) path
      parser.environmentId movePath [] chunks hchunks rfl moved
    refine ⟨_, acceptLines_cons_eq_ok.mpr ⟨_, hheader,
      acceptLines_append_eq_ok.mpr ⟨_, hmoved, hlast⟩⟩, rfl, rfl, rfl, trivial, ?_⟩
    apply sectionComplete_concat
    rintro _ _ _ ⟨⟩
    refine ⟨?_, hne⟩
    rw [← dropLast_append_getLast hne]
    exact lastChunkHasNoLines_concat _ (hchunks _ (getLast_mem hne))

theorem acceptLines_hunks (h : Ready parser) (hhunks : ∀ hunk ∈ hunks, hunk.WellFormed) :
    ∃ next, acceptLines parser (hunks.flatMap Hunk.render) = .ok next ∧
      next.hunks = parser.hunks ++ hunks ∧ next.environmentId = parser.environmentId ∧
      Ready next := by
  induction hunks generalizing parser with
  | nil => exact ⟨parser, rfl, by simp, rfl, h⟩
  | cons hunk rest ih =>
    obtain ⟨middle, hrun, hhunk, henvironment, hready⟩ :=
      acceptLines_hunk h (hhunks hunk (by simp))
    obtain ⟨next, hrest, hhunksNext, henvironmentNext, hreadyNext⟩ :=
      ih hready (fun other hother => hhunks other (mem_cons_of_mem _ hother))
    refine ⟨next, acceptLines_append_eq_ok.mpr ⟨middle, hrun, hrest⟩, ?_,
      henvironmentNext.trans henvironment, hreadyNext⟩
    rw [hhunksNext, hhunk, List.append_assoc, singleton_append]

/-- The environment id, which stands before the first section. -/
theorem acceptLines_environmentId (h : ∀ id, environmentId = some id → IsEnvironmentId id) :
    ∃ next, acceptLines started (renderEnvironmentId environmentId) = .ok next ∧
      next.hunks = [] ∧ next.environmentId = environmentId ∧ Ready next := by
  have hcomplete : ∀ {parser : StreamingPatchParser}, parser.hunks = [] →
      SectionComplete parser := by
    intro parser hnil path movePath chunks hlast
    rw [hnil] at hlast
    cases hlast
  cases environmentId with
  | none => exact ⟨started, rfl, rfl, rfl, rfl, trivial, hcomplete rfl⟩
  | some id =>
    have hid := h id rfl
    have htext : headerText .startedPatch ("*** Environment ID: ".toList ++ id) =
        environmentIdMarker ++ ' ' :: id :=
      hid.toIsName.headerText_append .startedPatch rfl
    have htrim : trim (' ' :: id) = id := by
      have hstart : trimStart (' ' :: id) = trimStart id := rfl
      rw [trim, hstart, hid.trimmedStart, hid.trimmed]
    have hstep : Step { started with lineNumber := 2 } ("*** Environment ID: ".toList ++ id)
        { started with lineNumber := 2, environmentId := some id } := by
      refine .handled trivial ?_
      have hhandled : Handled { started with lineNumber := 2 } (environmentIdMarker ++ ' ' :: id)
          { started with lineNumber := 2, environmentId := some (trim (' ' :: id)) } :=
        .environmentId rfl rfl rfl (by rw [htrim]; exact hid.ne_nil)
      rw [htrim, ← htext] at hhandled
      exact hhandled
    exact ⟨_, acceptLines_cons_eq_ok.mpr ⟨_, acceptLine_eq_ok_iff.mpr hstep, rfl⟩, rfl, rfl, rfl,
      trivial, hcomplete rfl⟩

/-! ## The lines that are written -/

theorem IsName.getLast?_ne (h : IsName name) : name.getLast? ≠ some '\r' := by
  intro hlast
  have hsplit := dropLast_append_getLast? '\r' hlast
  have htrim : trimEnd name = trimEnd name.dropLast := by
    conv_lhs => rw [← hsplit]
    exact trimEnd_append_of_blank (by decide)
  have hle : (trimEnd name.dropLast).length ≤ name.dropLast.length :=
    (List.rdropWhile_prefix _ _).length_le
  have hpos := length_pos_iff.mpr h.ne_nil
  rw [← htrim, h.trimmed, length_dropLast] at hle
  omega

theorem IsName.isContentLine_append (h : IsName name) {marker : Str} (hmarker : '\n' ∉ marker) :
    IsContentLine (marker ++ name) where
  newline := by simp [hmarker, h.newline]
  carriageReturn := by
    rw [getLast?_append_of_ne_nil _ h.ne_nil]
    exact h.getLast?_ne

theorem IsContentLine.cons {line : Str} (h : IsContentLine line) {c : Char} (hnewline : c ≠ '\n')
    (hreturn : c ≠ '\r') : IsContentLine (c :: line) where
  newline := by simp [h.newline, Ne.symm hnewline]
  carriageReturn := by
    cases line with
    | nil => simpa using hreturn
    | cons d rest =>
      exact h.carriageReturn

theorem isContentLine_changeLines {removed added : List Str}
    (hremoved : ∀ line ∈ removed, IsContentLine line) (hadded : ∀ line ∈ added, IsContentLine line) :
    ∀ line ∈ changeLines removed added, IsContentLine line := by
  intro line hline
  rcases mem_append.mp hline with hline | hline
  · obtain ⟨text, htext, rfl⟩ := mem_map.mp hline
    exact (hremoved text htext).cons (by decide) (by decide)
  · obtain ⟨text, htext, rfl⟩ := mem_map.mp hline
    exact (hadded text htext).cons (by decide) (by decide)

theorem isContentLine_bodyLines (h : chunk.WellFormed) (old new : ℕ) (indices : List (ℕ × ℕ)) :
    ∀ line ∈ chunk.bodyLines old new indices, IsContentLine line := by
  induction indices generalizing old new with
  | nil =>
    exact isContentLine_changeLines (fun line hline => h.oldLines line (mem_of_mem_drop hline))
      (fun line hline => h.newLines line (mem_of_mem_drop hline))
  | cons index rest ih =>
    obtain ⟨contextOld, contextNew⟩ := index
    intro line hline
    rcases mem_append.mp hline with hline | hline
    · exact isContentLine_changeLines
        (fun line hline => h.oldLines line (mem_of_mem_take (mem_of_mem_drop hline)))
        (fun line hline => h.newLines line (mem_of_mem_take (mem_of_mem_drop hline)))
        line hline
    rcases mem_cons.mp hline with rfl | hline
    · have hcontext : IsContentLine (chunk.oldLines.getD contextOld []) := by
        rw [getD_eq_getElem?_getD]
        cases hget : chunk.oldLines[contextOld]? with
        | none => exact ⟨by simp, by simp⟩
        | some text => exact h.oldLines text (mem_of_getElem? hget)
      exact hcontext.cons (by decide) (by decide)
    · exact ih _ _ line hline

theorem isContentLine_chunk (h : chunk.WellFormed) : ∀ line ∈ chunk.render, IsContentLine line := by
  intro line hline
  rcases mem_append.mp hline with hline | hline
  · rcases mem_cons.mp hline with rfl | hline
    · cases hcontext : chunk.changeContext with
      | none => exact ⟨by decide, by decide⟩
      | some changeContext =>
        exact (h.changeContext changeContext hcontext).isContentLine_append (by decide)
    · exact isContentLine_bodyLines h _ _ _ line hline
  · split_ifs at hline
    · rw [mem_singleton.mp hline]
      exact ⟨by decide, by decide⟩
    · exact absurd hline not_mem_nil

theorem isContentLine_hunk {hunk : Hunk} (h : hunk.WellFormed) :
    ∀ line ∈ hunk.render, IsContentLine line := by
  intro line hline
  cases hunk with
  | addFile path contents =>
    obtain ⟨hpath, hcontents⟩ := h
    rcases mem_cons.mp hline with rfl | hline
    · exact hpath.isContentLine_append (by decide)
    · obtain ⟨text, htext, rfl⟩ := mem_map.mp hline
      exact (hcontents.lines text htext).cons (by decide) (by decide)
  | deleteFile path =>
    rw [mem_singleton.mp hline]
    exact IsName.isContentLine_append h (by decide)
  | updateFile path movePath chunks =>
    obtain ⟨hpath, hmove, -, hchunks⟩ := h
    rcases mem_append.mp hline with hline | hline
    · rcases mem_cons.mp hline with rfl | hline
      · exact hpath.isContentLine_append (by decide)
      · rw [Option.mem_toList] at hline
        obtain ⟨destination, hdestination, rfl⟩ := Option.map_eq_some_iff.mp hline
        exact (hmove destination hdestination).isContentLine_append (by decide)
    · obtain ⟨chunk, hchunk, hline⟩ := mem_flatMap.mp hline
      exact isContentLine_chunk (hchunks chunk hchunk) line hline

theorem isContentLine_between (henvironment : ∀ id, environmentId = some id → IsEnvironmentId id)
    (hhunks : ∀ hunk ∈ hunks, hunk.WellFormed) :
    ∀ line ∈ renderBetween hunks environmentId, IsContentLine line := by
  intro line hline
  rcases mem_append.mp hline with hline | hline
  · rw [renderEnvironmentId, Option.mem_toList] at hline
    obtain ⟨id, hid, rfl⟩ := Option.map_eq_some_iff.mp hline
    exact (henvironment id hid).toIsName.isContentLine_append (by decide)
  · obtain ⟨hunk, hhunk, hline⟩ := mem_flatMap.mp hline
    exact isContentLine_hunk (hhunks hunk hhunk) line hline

/-- The lines of a written patch are those of its text. -/
theorem patchLines_renderPatch (henvironment : ∀ id, environmentId = some id → IsEnvironmentId id)
    (hhunks : ∀ hunk ∈ hunks, hunk.WellFormed) (lastTerminated : Bool) :
    PatchLines ((renderPatch hunks environmentId lastTerminated).splitOn '\n') beginPatchMarker
      (renderBetween hunks environmentId) endPatchMarker
      (if lastTerminated then [[]] else []) where
  eq := by
    apply splitOn_intercalate '\n' _ (by simp)
    intro line hline
    rcases mem_append.mp hline with hline | hline
    · rcases mem_cons.mp hline with rfl | hline
      · decide
      · exact (isContentLine_between henvironment hhunks line hline).newline
    · rcases mem_cons.mp hline with rfl | hline
      · decide
      · cases lastTerminated with
        | false => exact absurd hline not_mem_nil
        | true =>
          rw [mem_singleton.mp hline]
          exact not_mem_nil
  first := by decide
  last := by decide
  blanks := by
    intro blank hblank
    cases lastTerminated with
    | false => exact absurd hblank not_mem_nil
    | true =>
      rw [mem_singleton.mp hblank]
      rfl

/-- **Round trip.**  A patch that is written from well-formed hunks is read back as these
hunks, with the environment id. -/
theorem parsePatch_renderPatch {hunks : List Hunk} {environmentId : Option Str}
    (henvironment : ∀ id, environmentId = some id → IsEnvironmentId id)
    (hhunks : ∀ hunk ∈ hunks, hunk.WellFormed) (lastTerminated : Bool) :
    ∃ args, parsePatch (renderPatch hunks environmentId lastTerminated) = .ok args ∧
      args.hunks = hunks ∧ args.environmentId = environmentId := by
  obtain ⟨ready, hid, hnil, hreadId, hready⟩ := acceptLines_environmentId henvironment
  obtain ⟨next, hrun, hread, hkept, hcomplete⟩ := acceptLines_hunks hready hhunks
  have hstrip : ((renderBetween hunks environmentId).map stripCr).map stripCr =
      renderBetween hunks environmentId := by
    have hsame : ∀ line ∈ renderBetween hunks environmentId, stripCr line = line := by
      intro line hline
      have hreturn := (isContentLine_between henvironment hhunks line hline).carriageReturn
      rw [stripCr, if_neg hreturn]
    rw [map_congr_left hsame, map_id', map_congr_left hsame, map_id']
  have hall : acceptLines started (((renderBetween hunks environmentId).map stripCr).map stripCr) =
      .ok next := by
    rw [hstrip]
    exact acceptLines_append_eq_ok.mpr ⟨ready, hid, hrun⟩
  obtain ⟨args, hparse, hargs, hargsId⟩ := parsePatch_of_patchLines
    (patchLines_renderPatch henvironment hhunks lastTerminated) hall hcomplete.complete
  refine ⟨args, hparse, ?_, ?_⟩
  · rw [hargs, hread, hnil, nil_append]
  · rw [hargsId, hkept, hreadId]

/-- One hunk of each kind, with contents that look like markers. -/
def sampleHunks : List Hunk :=
  [.addFile "a b".toList "x\n*** End Patch\n".toList, .deleteFile " b".toList,
    .updateFile "c".toList (some "d".toList)
      [⟨none, ["@@".toList, []], ["@@".toList, "y".toList, []], [(0, 0), (1, 2)], true⟩,
        ⟨some " fn".toList, ["z".toList], [], [], false⟩]]

theorem parsePatch_renderPatch_sample :
    ∃ args, parsePatch (renderPatch sampleHunks (some "remote 1".toList) true) = .ok args ∧
      args.hunks = sampleHunks ∧ args.environmentId = some "remote 1".toList := by
  refine parsePatch_renderPatch ?_ ?_ true
  · rintro _ ⟨⟩
    exact ⟨⟨by decide, by decide, by decide⟩, by decide⟩
  · intro hunk hhunk
    simp only [sampleHunks, mem_cons, not_mem_nil, or_false] at hhunk
    have hlines : ∀ lines : List Str, (∀ line ∈ lines, '\n' ∉ line ∧ line.getLast? ≠ some '\r') →
        ∀ line ∈ lines, IsContentLine line :=
      fun lines h line hline => ⟨(h line hline).1, (h line hline).2⟩
    rcases hhunk with rfl | rfl | rfl
    · exact ⟨⟨by decide, by decide, by decide⟩, by decide, hlines _ (by decide)⟩
    · exact ⟨by decide, by decide, by decide⟩
    · refine ⟨⟨by decide, by decide, by decide⟩, ?_, by decide, ?_⟩
      · rintro _ ⟨⟩
        exact ⟨by decide, by decide, by decide⟩
      intro chunk hchunk
      simp only [mem_cons, not_mem_nil, or_false] at hchunk
      rcases hchunk with rfl | rfl
      · refine ⟨?_, hlines _ (by decide), hlines _ (by decide), by decide, by decide, by simp⟩
        rintro _ ⟨⟩
      · refine ⟨?_, hlines _ (by decide), hlines _ (by decide), by decide, by decide, by simp⟩
        rintro _ ⟨⟩
        exact ⟨by decide, by decide, by decide⟩

/-- An environment id is trimmed and must not be empty, and a context of two lines is not
one line of context. -/
theorem parsePatch_renderPatch_altered :
    ((parsePatch (renderPatch [.deleteFile "b".toList] (some " a".toList) true)).toOption.map
        ApplyPatchArgs.environmentId = some (some "a".toList) ∧
      (parsePatch (renderPatch [.deleteFile "b".toList] (some []) true)).toOption = none) ∧
    (("f\ng".toList ≠ [] ∧ trimEnd "f\ng".toList = "f\ng".toList) ∧
      (parsePatch (renderPatch [.updateFile "b".toList none
        [⟨some "f\ng".toList, ["x".toList], [], [], false⟩]] none true)).toOption = none) := by
  decide

end Codex.ApplyPatch
