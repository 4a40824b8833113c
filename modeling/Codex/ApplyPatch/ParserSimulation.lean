import Codex.ApplyPatch.PatchSection
import Mathlib.Algebra.GroupWithZero.Nat

/-!
# Reading the same lines with and without a carriage return

`parse_patch` cuts a text into lines, which takes a carriage return from the end of
each, and joins them again for `push_delta`, which takes another one.  So a line that
ends in two carriage returns before its line feed reaches the parser in two forms.

The comparison is a simulation: `Similar n` relates the parser of the stream to that
of the whole text after `n` lines of contents that differ.  Their hunks have the same
shape throughout and are equal as long as `n` is zero; after that the stream's hunks
hold more characters (`weight`), so that they never become equal again.
-/

namespace Codex.ApplyPatch

open Text StreamingPatchParser Section List

/-! ## Hunks of the same shape -/

/-- Chunks that differ in the characters of their lines at most. -/
structure UpdateFileChunk.Similar (chunk chunk' : UpdateFileChunk) : Prop where
  changeContext : chunk.changeContext = chunk'.changeContext
  oldLines : chunk.oldLines.length = chunk'.oldLines.length
  newLines : chunk.newLines.length = chunk'.newLines.length
  contextLineIndices : chunk.contextLineIndices = chunk'.contextLineIndices
  isEndOfFile : chunk.isEndOfFile = chunk'.isEndOfFile

inductive Hunk.Similar : Hunk → Hunk → Prop
  | addFile (path contents contents' : Str) :
      Hunk.Similar (.addFile path contents) (.addFile path contents')
  | deleteFile (path : Str) : Hunk.Similar (.deleteFile path) (.deleteFile path)
  | updateFile (path : Str) (movePath : Option Str) {chunks chunks' : List UpdateFileChunk}
      (h : List.Forall₂ UpdateFileChunk.Similar chunks chunks') :
      Hunk.Similar (.updateFile path movePath chunks) (.updateFile path movePath chunks')

theorem UpdateFileChunk.Similar.refl (chunk : UpdateFileChunk) : chunk.Similar chunk :=
  ⟨rfl, rfl, rfl, rfl, rfl⟩

theorem UpdateFileChunk.Similar.hasNoLines {chunk chunk' : UpdateFileChunk}
    (h : chunk.Similar chunk') : chunk.hasNoLines = chunk'.hasNoLines := by
  have hempty : ∀ {l l' : List Str}, l.length = l'.length → l.isEmpty = l'.isEmpty := by
    intro l l' hlength
    cases l <;> cases l' <;> simp_all
  unfold UpdateFileChunk.hasNoLines
  rw [hempty h.oldLines, hempty h.newLines]

/-- The number of characters in some lines. -/
def lineWeight (lines : List Str) : ℕ := (lines.map List.length).sum

def UpdateFileChunk.weight (chunk : UpdateFileChunk) : ℕ :=
  lineWeight chunk.oldLines + lineWeight chunk.newLines

def Hunk.weight : Hunk → ℕ
  | .addFile _ contents => contents.length
  | .deleteFile _ => 0
  | .updateFile _ _ chunks => (chunks.map UpdateFileChunk.weight).sum

section Last

variable {α : Type} {R : α → α → Prop} {weight : α → ℕ}

/-- Related lists end in related elements. -/
theorem forall₂_getLast? {l l' : List α} (h : List.Forall₂ R l l') {a : α}
    (hlast : l.getLast? = some a) :
    ∃ a', l'.getLast? = some a' ∧ R a a' ∧ List.Forall₂ R l.dropLast l'.dropLast := by
  induction h with
  | nil => cases hlast
  | @cons b b' l l' hb h ih =>
    cases h with
    | nil =>
      obtain rfl : b = a := by simpa using hlast
      exact ⟨b', rfl, hb, .nil⟩
    | cons hc hrest =>
      obtain ⟨a', hlast', ha, hdrop⟩ := ih (by simpa using hlast)
      exact ⟨a', by simpa using hlast', ha, .cons hb hdrop⟩

theorem forall₂_concat {l l' : List α} {a a' : α} (h : List.Forall₂ R l l') (ha : R a a') :
    List.Forall₂ R (l ++ [a]) (l' ++ [a']) := by
  induction h with
  | nil => exact .cons ha .nil
  | cons hb _ ih => exact .cons hb ih

/-- What related elements agree on, the lists agree on. -/
theorem map_congr_of_forall₂ {β : Type} {g : α → β} {l l' : List α} (h : List.Forall₂ R l l')
    (hg : ∀ {a a' : α}, R a a' → g a = g a') : l.map g = l'.map g := by
  induction h with
  | nil => rfl
  | cons ha _ ih => rw [map_cons, map_cons, hg ha, ih]

theorem getLast?_eq_none_of_forall₂ {l l' : List α} (h : List.Forall₂ R l l')
    (hlast : l.getLast? = none) : l' = [] := by
  rw [getLast?_eq_none_iff] at hlast
  subst hlast
  cases h
  rfl

theorem sum_dropLast_add {l : List α} {a : α} (hlast : l.getLast? = some a) :
    (l.map weight).sum = (l.dropLast.map weight).sum + weight a := by
  conv_lhs => rw [← dropLast_append_getLast? a hlast]
  simp

end Last

section Chunks

variable {chunks chunks' : List UpdateFileChunk}

section

variable (h : List.Forall₂ UpdateFileChunk.Similar chunks chunks')
include h

theorem afterEof_congr : AfterEof chunks ↔ AfterEof chunks' := by
  have hlast : ∀ l : List UpdateFileChunk, AfterEof l ↔
      (l.map UpdateFileChunk.isEndOfFile).getLast? = some true := by
    intro l
    rw [getLast?_map]
    cases hlast : l.getLast? with
    | none | some chunk => simp [AfterEof, hlast]
  rw [hlast, hlast, map_congr_of_forall₂ h fun h => h.isEndOfFile]

theorem lastChunkHasNoLines_congr : lastChunkHasNoLines chunks = lastChunkHasNoLines chunks' := by
  have hlast : ∀ l : List UpdateFileChunk, lastChunkHasNoLines l =
      (l.map UpdateFileChunk.hasNoLines).getLast?.any id := by
    intro l
    rw [getLast?_map, Option.any_map]
    rfl
  rw [hlast, hlast, map_congr_of_forall₂ h fun h => h.hasNoLines]

/-- Two changes of a chunk that keep the shape, of which the first adds at least `k`
characters more. -/
structure SimilarChange (k : ℕ) (f f' : UpdateFileChunk → UpdateFileChunk) : Prop where
  similar : ∀ {chunk chunk' : UpdateFileChunk}, chunk.Similar chunk' → (f chunk).Similar (f' chunk')
  weight : ∀ chunk chunk' : UpdateFileChunk,
    (f' chunk').weight + chunk.weight + k ≤ (f chunk).weight + chunk'.weight
  eq : k = 0 → f = f'

/-- What a line does to the chunks of two similar sections. -/
structure SimilarChunks (k : ℕ) (chunks chunks' next next' : List UpdateFileChunk) : Prop where
  similar : List.Forall₂ UpdateFileChunk.Similar next next'
  weight : (next'.map UpdateFileChunk.weight).sum + (chunks.map UpdateFileChunk.weight).sum + k ≤
    (next.map UpdateFileChunk.weight).sum + (chunks'.map UpdateFileChunk.weight).sum
  eq : k = 0 → chunks = chunks' → next = next'

omit h in
theorem SimilarChange.modifyLastChunk {k : ℕ} {f f' : UpdateFileChunk → UpdateFileChunk}
    (hf : SimilarChange k f f') (h : List.Forall₂ UpdateFileChunk.Similar chunks chunks') :
    SimilarChunks k chunks chunks' (modifyLastChunk chunks f) (modifyLastChunk chunks' f') := by
  refine ⟨?_, ?_, fun hk hchunks => by rw [hf.eq hk, hchunks]⟩
  · unfold ApplyPatch.modifyLastChunk
    cases hlast : chunks.getLast? with
    | none =>
      rw [getLast?_eq_none_of_forall₂ h hlast]
      exact .cons (hf.similar (.refl _)) .nil
    | some chunk =>
      obtain ⟨chunk', hlast', hchunk, hdrop⟩ := forall₂_getLast? h hlast
      rw [hlast']
      exact forall₂_concat hdrop (hf.similar hchunk)
  · unfold ApplyPatch.modifyLastChunk
    cases hlast : chunks.getLast? with
    | none =>
      have hnil := getLast?_eq_none_iff.mp hlast
      have hweight := hf.weight .empty .empty
      rw [getLast?_eq_none_of_forall₂ h hlast, hnil]
      simp only [getLast?_nil, map_cons, sum_cons]
      omega
    | some chunk =>
      obtain ⟨chunk', hlast', -, -⟩ := forall₂_getLast? h hlast
      have hweight := hf.weight chunk chunk'
      rw [hlast', sum_dropLast_add hlast, sum_dropLast_add hlast']
      simp only [map_append, map_cons, sum_append, sum_cons]
      omega

theorem SimilarChunks.concat {chunk : UpdateFileChunk} :
    SimilarChunks 0 chunks chunks' (chunks ++ [chunk]) (chunks' ++ [chunk]) where
  similar := forall₂_concat h (.refl chunk)
  weight := by
    simp only [map_append, sum_append]
    omega
  eq := fun _ hchunks => by rw [hchunks]

theorem SimilarChunks.unchanged : SimilarChunks 0 chunks chunks' chunks chunks' :=
  ⟨h, by omega, fun _ hchunks => hchunks⟩

end

theorem similarChange_isEndOfFile :
    SimilarChange 0 (fun chunk => { chunk with isEndOfFile := true })
      (fun chunk => { chunk with isEndOfFile := true }) where
  similar := fun h => ⟨h.changeContext, h.oldLines, h.newLines, h.contextLineIndices, rfl⟩
  weight := fun chunk chunk' => by
    simp only [UpdateFileChunk.weight]
    omega
  eq := fun _ => rfl

end Chunks

theorem lineWeight_concat (lines : List Str) (line : Str) :
    lineWeight (lines ++ [line]) = lineWeight lines + line.length := by
  simp [lineWeight]

/-- One for a text that ends in a carriage return. -/
def crAtEnd (text : Str) : ℕ := if text.getLast? = some '\r' then 1 else 0

theorem length_stripCr (text : Str) : (stripCr text).length + crAtEnd text = text.length := by
  unfold crAtEnd
  rcases stripCr_cases text with ⟨h, hlast⟩ | ⟨h, hlast⟩
  · rw [if_neg hlast, h, Nat.add_zero]
  · rw [if_pos hlast]
    conv_rhs => rw [h]
    simp

theorem stripCr_of_crAtEnd_eq_zero {text : Str} (h : crAtEnd text = 0) : stripCr text = text := by
  rcases stripCr_cases text with ⟨hsame, -⟩ | ⟨-, hlast⟩
  · exact hsame
  · simp [crAtEnd, hlast] at h

/-- A first character that is no carriage return stays, and does not count. -/
theorem stripCr_cons {c : Char} (hc : c ≠ '\r') (text : Str) :
    stripCr (c :: text) = c :: stripCr text ∧ crAtEnd (c :: text) = crAtEnd text := by
  cases text with
  | nil => simp [stripCr, crAtEnd, hc]
  | cons d rest =>
    unfold stripCr crAtEnd
    simp only [getLast?_cons_cons, and_true]
    split_ifs <;> rfl

open UpdateFileChunk

theorem similarChange_context (text : Str) :
    SimilarChange (crAtEnd text) (fun chunk => chunk.pushContextLine text)
      (fun chunk => chunk.pushContextLine (stripCr text)) where
  similar := fun h =>
    ⟨h.changeContext, by simp [pushContextLine, h.oldLines],
      by simp [pushContextLine, h.newLines],
      by simp [pushContextLine, h.oldLines, h.newLines, h.contextLineIndices],
      h.isEndOfFile⟩
  weight := fun chunk chunk' => by
    have hlength := length_stripCr text
    simp only [UpdateFileChunk.weight, pushContextLine, lineWeight_concat]
    omega
  eq := fun hk => by rw [stripCr_of_crAtEnd_eq_zero hk]

/-! ## One line -/

variable {line : Str}

/-- The line of the whole text has the same effect as that of the stream. -/
theorem similarChange_of_chunkLine {f : UpdateFileChunk → UpdateFileChunk}
    (h : chunkLine line = some f) :
    ∃ f', chunkLine (stripCr line) = some f' ∧ SimilarChange (crAtEnd line) f f' := by
  unfold chunkLine at h
  split at h
  · cases h
    exact ⟨_, rfl, similarChange_context []⟩
  · next text =>
      cases h
      obtain ⟨hstrip, hcr⟩ := stripCr_cons (by decide : ' ' ≠ '\r') text
      rw [hstrip, hcr]
      exact ⟨_, rfl, similarChange_context text⟩
  · next text =>
      cases h
      obtain ⟨hstrip, hcr⟩ := stripCr_cons (by decide : '+' ≠ '\r') text
      rw [hstrip, hcr]
      refine ⟨_, rfl, fun h => ?_, fun chunk chunk' => ?_, fun hk => by rw [stripCr_of_crAtEnd_eq_zero hk]⟩
      · exact ⟨h.changeContext, h.oldLines, by simp [h.newLines], h.contextLineIndices, h.isEndOfFile⟩
      · have hlength := length_stripCr text
        simp only [UpdateFileChunk.weight, lineWeight_concat]
        omega
  · next text =>
      cases h
      obtain ⟨hstrip, hcr⟩ := stripCr_cons (by decide : '-' ≠ '\r') text
      rw [hstrip, hcr]
      refine ⟨_, rfl, fun h => ?_, fun chunk chunk' => ?_, fun hk => by rw [stripCr_of_crAtEnd_eq_zero hk]⟩
      · exact ⟨h.changeContext, by simp [h.oldLines], h.newLines, h.contextLineIndices, h.isEndOfFile⟩
      · have hlength := length_stripCr text
        simp only [UpdateFileChunk.weight, lineWeight_concat]
        omega
  · cases h

/-- A line of a chunk is contents, unless it is empty and has no carriage return to lose. -/
theorem crContent_of_chunkLine {f : UpdateFileChunk → UpdateFileChunk} (h : chunkLine line = some f)
    {lastChunkEnded : Option Bool} (hended : lastChunkEnded ≠ some true) :
    (update lastChunkEnded).crContent line = crAtEnd line := by
  unfold chunkLine at h
  split at h
  · simp [crContent, crAtEnd]
  all_goals simp [crContent, isContent, crAtEnd, hended]
  · cases h

/-- A line that begins like a marker is no contents of a chunk. -/
theorem crContent_of_marker {rest : Str} {c : Char} (h : trimEnd line = c :: rest)
    (hc : c ≠ ' ' ∧ c ≠ '+' ∧ c ≠ '-') (lastChunkEnded : Option Bool) :
    (update lastChunkEnded).crContent line = 0 := by
  apply crContent_of_not_isContent
  simp [isContent, head?_of_trimEnd h, hc.1, hc.2.1, hc.2.2]

theorem UpdateStep.similar {movePath movePath' : Option Str}
    {chunks chunks' next : List UpdateFileChunk}
    (hchunks : List.Forall₂ UpdateFileChunk.Similar chunks chunks')
    (h : UpdateStep line movePath chunks movePath' next) :
    ∃ next', UpdateStep (stripCr line) movePath chunks' movePath' next' ∧
      SimilarChunks ((update (chunks.getLast?.map UpdateFileChunk.isEndOfFile)).crContent
        line) chunks chunks' next next' := by
  have hlines := lastChunkHasNoLines_congr hchunks
  have hafter := afterEof_congr hchunks
  have hmarker : ('@' : Char) ≠ ' ' ∧ ('@' : Char) ≠ '+' ∧ ('@' : Char) ≠ '-' := by decide
  have hstar : ('*' : Char) ≠ ' ' ∧ ('*' : Char) ≠ '+' ∧ ('*' : Char) ≠ '-' := by decide
  cases h with
  | skip heof hline =>
    have hended : chunks.getLast?.map UpdateFileChunk.isEndOfFile = some true := by
      cases hlast : chunks.getLast? with
      | none => simp [AfterEof, hlast] at heof
      | some chunk => simpa [AfterEof, hlast] using heof
    rw [crContent_of_not_isContent (by simp [isContent, hended])]
    exact ⟨chunks', .skip (hafter.mp heof) (by rw [trimEnd_stripCr, hline]), .unchanged hchunks⟩
  | moveTo hline =>
    cases hchunks
    rw [crContent_of_marker hline hstar]
    exact ⟨[], .moveTo (by rw [trimEnd_stripCr, hline]), .unchanged .nil⟩
  | emptyContext hno hline =>
    rw [crContent_of_marker hline hmarker]
    exact ⟨_, .emptyContext (hlines ▸ hno) (by rw [trimEnd_stripCr, hline]), .concat hchunks⟩
  | context hno hline =>
    rw [crContent_of_marker hline hmarker]
    exact ⟨_, .context (hlines ▸ hno) (by rw [trimEnd_stripCr, hline]), .concat hchunks⟩
  | eof heof hno hline =>
    rw [crContent_of_marker hline hstar]
    refine ⟨_, .eof (hafter.not.mp heof) (hlines ▸ hno) (by rw [trimEnd_stripCr, hline]), ?_⟩
    cases hchunks with
    | nil => exact .unchanged .nil
    | cons hhead hrest =>
      exact similarChange_isEndOfFile.modifyLastChunk (.cons hhead hrest)
  | line heof hline =>
    obtain ⟨f', hline', hf⟩ := similarChange_of_chunkLine hline
    rw [crContent_of_chunkLine hline (lastChunkEnded_ne_of_not_afterEof heof)]
    exact ⟨_, .line (hafter.not.mp heof) hline', hf.modifyLastChunk hchunks⟩

/-- The parser of a stream and that of the whole text, after `n` lines of contents that
they read differently. -/
structure Similar (n : ℕ) (parser parser' : StreamingPatchParser) : Prop where
  lineBuffer : parser.lineBuffer = parser'.lineBuffer
  mode : parser.mode = parser'.mode
  environmentId : parser.environmentId = parser'.environmentId
  lineNumber : parser.lineNumber = parser'.lineNumber
  hunks : List.Forall₂ Hunk.Similar parser.hunks parser'.hunks
  weight : (parser'.hunks.map Hunk.weight).sum + n ≤ (parser.hunks.map Hunk.weight).sum
  eq : n = 0 → parser.hunks = parser'.hunks

variable {parser parser' : StreamingPatchParser}

theorem Similar.setLastHunk {n k : ℕ} {last last' hunk hunk' : Hunk} (h : Similar n parser parser')
    (hlast : parser.hunks.getLast? = some last) (hlast' : parser'.hunks.getLast? = some last')
    (hhunk : hunk.Similar hunk')
    (hweight : hunk'.weight + last.weight + k ≤ hunk.weight + last'.weight)
    (heq : n + k = 0 → hunk = hunk') :
    Similar (n + k) (parser.setLastHunk hunk) (parser'.setLastHunk hunk') where
  lineBuffer := h.lineBuffer
  mode := h.mode
  environmentId := h.environmentId
  lineNumber := h.lineNumber
  hunks := by
    obtain ⟨_, -, -, hdrop⟩ := forall₂_getLast? h.hunks hlast
    exact forall₂_concat hdrop hhunk
  weight := by
    have hbefore := h.weight
    rw [sum_dropLast_add hlast, sum_dropLast_add hlast'] at hbefore
    simp only [StreamingPatchParser.setLastHunk, map_append, map_cons, sum_append, sum_cons]
    omega
  eq := by
    intro hn
    have hsame : parser.hunks = parser'.hunks := h.eq (by omega)
    simp only [StreamingPatchParser.setLastHunk, hsame, heq hn]

theorem Similar.sectionComplete {n : ℕ} (h : Similar n parser parser')
    (hcomplete : SectionComplete parser) : SectionComplete parser' := by
  intro path movePath chunks' hlast'
  cases hlast : parser.hunks.getLast? with
  | none =>
    rw [getLast?_eq_none_of_forall₂ h.hunks hlast] at hlast'
    cases hlast'
  | some last =>
    obtain ⟨last', hlast'', hhunk, -⟩ := forall₂_getLast? h.hunks hlast
    obtain rfl : last' = .updateFile path movePath chunks' :=
      Option.some.inj (hlast''.symm.trans hlast')
    cases hhunk with
    | @updateFile _ _ chunks _ hchunks =>
      obtain ⟨hlines, hmode⟩ := hcomplete path movePath chunks hlast
      refine ⟨(lastChunkHasNoLines_congr hchunks).symm.trans hlines, ?_⟩
      intro hnil hunkLineNumber
      subst hnil
      cases hchunks
      rw [← h.mode]
      exact hmode rfl hunkLineNumber

theorem headerText_stripCr (mode : StreamingParserMode) (line : Str) :
    headerText mode (stripCr line) = headerText mode line := by
  cases mode with
  | updateFile hunkLineNumber => exact trimEnd_stripCr line
  | _ => exact trim_stripCr line

variable {next : StreamingPatchParser}

theorem Similar.handled {n : ℕ} {text : Str} (h : Similar n parser parser')
    (hhandled : Handled parser text next) :
    ∃ next', Handled parser' text next' ∧ Similar n next next' := by
  cases hhandled with
  | environmentId hmode htext hnone hid =>
    exact ⟨_, .environmentId (h.mode ▸ hmode) htext (h.environmentId ▸ hnone) hid,
      ⟨h.lineBuffer, h.mode, rfl, h.lineNumber, h.hunks, h.weight, h.eq⟩⟩
  | endPatch htext hcomplete =>
    exact ⟨_, .endPatch htext (h.sectionComplete hcomplete),
      ⟨h.lineBuffer, rfl, h.environmentId, h.lineNumber, h.hunks, h.weight, h.eq⟩⟩
  | @hunk hunk mode hheader hcomplete =>
    have hself : hunk.Similar hunk := by
      cases hheader with
      | addFile path => exact .addFile path [] []
      | deleteFile path => exact .deleteFile path
      | updateFile path => exact .updateFile path none .nil
    have hweight := h.weight
    refine ⟨_, .hunk (h.lineNumber ▸ hheader) (h.sectionComplete hcomplete),
      ⟨h.lineBuffer, rfl, h.environmentId, h.lineNumber, forall₂_concat h.hunks hself, ?_,
        fun hn => by rw [h.eq hn]⟩⟩
    simp only [map_append, sum_append]
    omega

/-- **Step.**  The whole text's parser follows, and falls behind by the carriage return
of a line of contents. -/
theorem Similar.step {n : ℕ} (h : Similar n parser parser') (hstep : Step parser line next) :
    ∃ next', Step parser' (stripCr line) next' ∧
      Similar (n + (of parser).crContent line) next next' := by
  cases hstep with
  | beginPatch hmode hline =>
    have hcontent : (of parser).isContent line = false := by
      rw [of_eq_outside (by simp [hmode])]
      simpa [isContent] using head?_ne_plus_of_trim hline
    rw [crContent_of_not_isContent hcontent]
    exact ⟨_, .beginPatch (h.mode ▸ hmode) (by rw [trim_stripCr, hline]),
      ⟨h.lineBuffer, rfl, h.environmentId, h.lineNumber, h.hunks, h.weight, h.eq⟩⟩
  | handled hbody hhandled =>
    obtain ⟨rest, htext⟩ := hhandled.text_eq
    rw [crContent_of_not_isContent (isContent_of_headerText htext)]
    obtain ⟨next', hhandled', hnext⟩ := h.handled hhandled
    refine ⟨next', .handled (h.mode ▸ hbody) ?_, hnext⟩
    rw [headerText_stripCr, ← h.mode]
    exact hhandled'
  | @addLine path contents text hmode hlast hline =>
    subst hline
    obtain ⟨last', hlast', hhunk, -⟩ := forall₂_getLast? h.hunks hlast
    cases hhunk with
    | addFile _ _ contents' =>
      obtain ⟨hstrip, hcr⟩ := stripCr_cons (by decide : '+' ≠ '\r') text
      have hcontent : (of parser).crContent ('+' :: text) = crAtEnd text := by
        rw [of_eq_outside (by simp [hmode]), ← hcr]
        simp [crContent, isContent, crAtEnd]
      have hlength := length_stripCr text
      rw [hstrip]
      refine ⟨_, .addLine (h.mode ▸ hmode) hlast' rfl,
        h.setLastHunk hlast hlast' (.addFile path _ _) ?_ ?_⟩
      · simp only [Hunk.weight, length_append]
        omega
      · intro hn
        have hsame : parser.hunks = parser'.hunks := h.eq (by omega)
        rw [hsame] at hlast
        obtain ⟨-, rfl⟩ := Hunk.addFile.inj (Option.some.inj (hlast.symm.trans hlast'))
        rw [stripCr_of_crAtEnd_eq_zero (by omega)]
  | @update hunkLineNumber path movePath movePath' chunks nextChunks hmode hlast hupdate =>
    obtain ⟨last', hlast', hhunk, -⟩ := forall₂_getLast? h.hunks hlast
    cases hhunk with
    | @updateFile _ _ _ chunks' hchunks =>
      obtain ⟨nextChunks', hupdate', hnext⟩ := hupdate.similar hchunks
      rw [of_eq_update hmode hlast]
      refine ⟨_, .update (h.mode ▸ hmode) hlast' hupdate',
        h.setLastHunk hlast hlast' (.updateFile path movePath' hnext.similar) hnext.weight ?_⟩
      intro hn
      have hsame : parser.hunks = parser'.hunks := h.eq (by omega)
      rw [hsame] at hlast
      obtain ⟨-, -, hchunksEq⟩ :=
        Hunk.updateFile.inj (Option.some.inj (hlast.symm.trans hlast'))
      rw [hnext.eq (by omega) hchunksEq]
  | blank hmode hline =>
    have hcontent : (of parser).isContent line = false := by
      rw [of_eq_outside (by simp [hmode])]
      cases line with
      | nil => rfl
      | cons c text =>
        have hblank := trim_eq_nil_iff.mp hline c (by simp)
        have hc : c ≠ '+' := by
          rintro rfl
          exact absurd hblank (by decide)
        simp [isContent, hc]
    rw [crContent_of_not_isContent hcontent]
    exact ⟨parser', .blank (h.mode ▸ hmode) (by rw [trim_stripCr, hline]), h⟩

/-- **Run.**  The lines of a stream and the same lines without their carriage returns. -/
theorem Similar.acceptLines {n : ℕ} {lines : List Str} (h : Similar n parser parser')
    (hrun : acceptLines parser lines = .ok next) :
    ∃ next', acceptLines parser' (lines.map stripCr) = .ok next' ∧
      Similar (n + (of parser).crContents lines) next next' := by
  induction lines generalizing n parser parser' with
  | nil =>
    cases hrun
    exact ⟨parser', rfl, h⟩
  | cons line rest ih =>
    obtain ⟨middle, hline, hrest⟩ := acceptLines_cons_eq_ok.mp hrun
    have hcount : Similar n { parser with lineNumber := parser.lineNumber + 1 }
        { parser' with lineNumber := parser'.lineNumber + 1 } :=
      ⟨h.lineBuffer, h.mode, h.environmentId, by rw [h.lineNumber], h.hunks, h.weight, h.eq⟩
    have hstep := acceptLine_eq_ok_iff.mp hline
    have hof := of_step hstep
    -- the line number plays no part in the section
    change of middle = (of parser).next line at hof
    obtain ⟨middle', hstep', hmiddle⟩ := hcount.step hstep
    obtain ⟨next', hrest', hnext⟩ := ih hmiddle hrest
    refine ⟨next', ?_, ?_⟩
    · rw [map_cons]
      exact acceptLines_cons_eq_ok.mpr ⟨middle', acceptLine_eq_ok_iff.mpr hstep', hrest'⟩
    · rw [hof, Nat.add_assoc] at hnext
      exact hnext

end Codex.ApplyPatch
