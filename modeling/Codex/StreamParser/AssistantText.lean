import Codex.StreamParser.InlineHiddenTag
import Codex.StreamParser.TaggedLine

/-!
# The assistant's text

The text of the assistant comes in pieces.  Citations are taken out of it first; in plan mode
what is left goes on to the parser of plan blocks.  Either parser is described by the text it
has been given so far, however that was cut (`CitationsRead`, `PlanRead`), and so is the one
that is made of the two.

`parseChunks_streams` follows: whatever the cuts, the output is that of the whole text
(`parseChunks_spec`), and for the whole text it is computed line by line (`plainText_readLines`,
`map_readLines`).
-/

namespace Codex.StreamParser

open Text Search TaggedLineParser StreamTextChunk

/-! ## Citations -/

inductive CitationTag where
  | citation
  deriving DecidableEq

def citationSpec : InlineTagSpec CitationTag where
  tag := .citation
  opening := "<oai-mem-citation>".toList
  closing := "</oai-mem-citation>".toList
  opening_ne := by decide
  closing_ne := by decide

structure CitationStreamParser where
  inner : InlineHiddenTagParser CitationTag

/-- The chunk with the contents of its tags. -/
def contents {τ : Type*} (chunk : StreamTextChunk (ExtractedInlineTag τ)) : StreamTextChunk Str :=
  ⟨chunk.visibleText, chunk.extracted.map ExtractedInlineTag.content⟩

namespace CitationStreamParser

protected def new : CitationStreamParser := ⟨.new [citationSpec]⟩

def pushStr (parser : CitationStreamParser) (chunk : Str) :
    CitationStreamParser × StreamTextChunk Str :=
  let (inner, out) := parser.inner.pushStr chunk
  (⟨inner⟩, contents out)

def finish (parser : CitationStreamParser) : CitationStreamParser × StreamTextChunk Str :=
  let (inner, out) := parser.inner.finish
  (⟨inner⟩, contents out)

end CitationStreamParser

/-! ## Plans -/

inductive PlanTag where
  | proposedPlan
  deriving DecidableEq

inductive ProposedPlanSegment where
  | normal (text : Str)
  | proposedPlanStart
  | proposedPlanDelta (text : Str)
  | proposedPlanEnd
  deriving DecidableEq

def openTag : Str := "<proposed_plan>".toList

def closeTag : Str := "</proposed_plan>".toList

def planSpec : TagSpec PlanTag := ⟨openTag, closeTag, .proposedPlan⟩

def mapSegment : TaggedLineSegment PlanTag → ProposedPlanSegment
  | .normal text => .normal text
  | .tagStart .proposedPlan => .proposedPlanStart
  | .tagDelta .proposedPlan text => .proposedPlanDelta text
  | .tagEnd .proposedPlan => .proposedPlanEnd

/-- The plain text of a segment. -/
def plainText {τ : Type*} : TaggedLineSegment τ → Str
  | .normal text => text
  | _ => []

def mapSegments (segments : List (TaggedLineSegment PlanTag)) :
    StreamTextChunk ProposedPlanSegment :=
  ⟨segments.flatMap plainText, segments.map mapSegment⟩

structure ProposedPlanParser where
  parser : TaggedLineParser PlanTag

namespace ProposedPlanParser

protected def new : ProposedPlanParser := ⟨.new [planSpec]⟩

def pushStr (parser : ProposedPlanParser) (chunk : Str) :
    ProposedPlanParser × StreamTextChunk ProposedPlanSegment :=
  let (inner, segments) := parser.parser.parse chunk
  (⟨inner⟩, mapSegments segments)

def finish (parser : ProposedPlanParser) :
    ProposedPlanParser × StreamTextChunk ProposedPlanSegment :=
  let (inner, segments) := parser.parser.finish
  (⟨inner⟩, mapSegments segments)

end ProposedPlanParser

/-! ## Both -/

structure AssistantTextChunk where
  visibleText : Str
  citations : List Str
  planSegments : List ProposedPlanSegment
  deriving DecidableEq

structure AssistantTextStreamParser where
  planMode : Bool
  citations : CitationStreamParser
  plan : ProposedPlanParser

namespace AssistantTextStreamParser

protected def new (planMode : Bool) : AssistantTextStreamParser := ⟨planMode, .new, .new⟩

variable (parser : AssistantTextStreamParser)

def parseVisibleText (visibleText : Str) : AssistantTextStreamParser × AssistantTextChunk :=
  if parser.planMode then
    let (plan, chunk) := parser.plan.pushStr visibleText
    ({ parser with plan }, ⟨chunk.visibleText, [], chunk.extracted⟩)
  else (parser, ⟨visibleText, [], []⟩)

def pushStr (chunk : Str) : AssistantTextStreamParser × AssistantTextChunk :=
  let (citations, citationChunk) := parser.citations.pushStr chunk
  let (parser, out) := parseVisibleText { parser with citations } citationChunk.visibleText
  (parser, { out with citations := citationChunk.extracted })

def finish : AssistantTextStreamParser × AssistantTextChunk :=
  let (citations, citationChunk) := parser.citations.finish
  let (parser, out) := parseVisibleText { parser with citations } citationChunk.visibleText
  let (parser, out) :=
    if parser.planMode then
      let (plan, tail) := parser.plan.finish
      ({ parser with plan },
        if tail.isEmpty then out
        else { out with
          visibleText := out.visibleText ++ tail.visibleText
          planSegments := out.planSegments ++ tail.extracted })
    else (parser, out)
  (parser, { out with citations := citationChunk.extracted })

/-- One push, as a step of a machine. -/
def push (chunk : Str) : AssistantTextStreamParser × List AssistantTextChunk :=
  ((parser.pushStr chunk).1, [(parser.pushStr chunk).2])

end AssistantTextStreamParser

/-- What a list of chunks comes to. -/
def AssistantTextChunk.concat (chunks : List AssistantTextChunk) : AssistantTextChunk where
  visibleText := (chunks.map AssistantTextChunk.visibleText).flatten
  citations := (chunks.map AssistantTextChunk.citations).flatten
  planSegments := (chunks.map AssistantTextChunk.planSegments).flatten

/-- All that the parser puts out for a text in pieces, the end of the text included. -/
def parseChunks (planMode : Bool) (chunks : List Str) : AssistantTextChunk :=
  .concat (Run.outputs AssistantTextStreamParser.push (.new planMode) chunks ++
    [(Run.after AssistantTextStreamParser.push (.new planMode) chunks).finish.2])

/-! ## What the citation parser has read -/

theorem contents_append {τ : Type*} (first second : StreamTextChunk (ExtractedInlineTag τ)) :
    contents (first.append second) = (contents first).append (contents second) := by
  simp [contents, append]

/-- What is left of a text without its citations, and the citations. -/
def stripCitations (text : Str) : StreamTextChunk Str := contents (hide citationSpec none text)

/-- The parser has been given a text and has put out the chunk; the rest is to be read as the
rest of the text would be. -/
structure CitationsRead (parser : CitationStreamParser) (past : Str) (out : StreamTextChunk Str) :
    Prop where
  specs_eq : parser.inner.specs = [citationSpec]
  follows : Follows citationSpec parser.inner.active
  length_lt : parser.inner.pending.length < (delimiter citationSpec parser.inner.active).length
  strip_eq : ∀ more, stripCitations (past ++ more) =
    out.append (contents (hide citationSpec (parser.inner.active.map ActiveTag.content)
      (parser.inner.pending ++ more)))

theorem citationsRead_new : CitationsRead .new [] .empty where
  specs_eq := rfl
  follows := by simp [Follows, CitationStreamParser.new, InlineHiddenTagParser.new]
  length_lt := List.length_pos_of_ne_nil citationSpec.opening_ne
  strip_eq _ := rfl

namespace CitationsRead

variable {parser : CitationStreamParser} {past : Str} {out : StreamTextChunk Str}

theorem pushStr (h : CitationsRead parser past out) (chunk : Str) :
    CitationsRead (parser.pushStr chunk).1 (past ++ chunk) (out.append (parser.pushStr chunk).2) := by
  have hresidue := residue_drain citationSpec parser.inner.active (parser.inner.pending ++ chunk)
    h.follows
  rw [← h.specs_eq] at hresidue
  refine ⟨h.specs_eq, hresidue.follows, hresidue.length_lt, fun more => ?_⟩
  have hmore := hresidue.hide_eq more
  rw [List.append_assoc] at hmore
  rw [List.append_assoc, h.strip_eq, hmore, contents_append, append_assoc]
  rfl

theorem finish (h : CitationsRead parser past out) :
    out.append parser.finish.2 = stripCitations past := by
  have hend := h.strip_eq []
  rw [List.append_nil, List.append_nil] at hend
  have hlength := h.length_lt
  rw [hend, CitationStreamParser.finish, InlineHiddenTagParser.finish]
  -- the end of the text closes an open tag and shows what was kept back
  cases hcase : parser.inner.active with
  | none =>
    rw [hcase] at hlength
    rw [Option.map_none, hide_unopened (find_eq_none_of_length_lt hlength)]
  | some tag =>
    rw [hcase] at hlength
    rw [Option.map_some, hide_unclosed (find_eq_none_of_length_lt hlength),
      ← (h.follows tag hcase).1]

end CitationsRead

/-! ## What the plan parser has read -/

theorem mapSegments_append (segments more : List (TaggedLineSegment PlanTag)) :
    mapSegments (segments ++ more) = (mapSegments segments).append (mapSegments more) := by
  simp [mapSegments, append]

/-- The parser has been given a text and has put out the chunk. -/
structure PlanRead (parser : ProposedPlanParser) (past : Str)
    (segments : List (TaggedLineSegment PlanTag)) : Prop where
  parser_eq : parser.parser = Run.after readChar (.new [planSpec]) past
  atoms_eq : atoms segments = atoms (Run.outputs readChar (.new [planSpec]) past)
  wellFormed : WellFormed none segments parser.parser.activeTag

namespace PlanRead

variable {parser : ProposedPlanParser} {past : Str} {segments : List (TaggedLineSegment PlanTag)}

theorem pushStr (h : PlanRead parser past segments) (chunk : Str) :
    PlanRead (parser.pushStr chunk).1 (past ++ chunk)
      (segments ++ (parser.parser.parse chunk).2) := by
  obtain ⟨hafter, hatoms⟩ := parser.parser.parse_spec chunk
  refine ⟨?_, ?_, h.wellFormed.append (parser.parser.wellFormed_parse chunk)⟩
  · rw [Run.after_append, ← h.parser_eq]
    exact hafter
  · rw [atoms_append, h.atoms_eq, hatoms, Run.outputs_append, atoms_append, ← h.parser_eq]

/-- At the end, the segments are those of the lines. -/
theorem finish (h : PlanRead parser past segments) :
    atoms (segments ++ parser.parser.finish.2) =
        atoms (readLines [planSpec] none (linesInclusive past)) ∧
      WellFormed none (segments ++ parser.parser.finish.2) none := by
  refine ⟨?_, h.wellFormed.append parser.parser.wellFormed_finish⟩
  rw [atoms_append, h.atoms_eq, h.parser_eq]
  exact atoms_readLines [planSpec] none past

end PlanRead

/-! ## What the parser has read -/

theorem AssistantTextChunk.concat_append (chunks : List AssistantTextChunk)
    (chunk : AssistantTextChunk) :
    concat (chunks ++ [chunk]) =
      ⟨(concat chunks).visibleText ++ chunk.visibleText,
        (concat chunks).citations ++ chunk.citations,
        (concat chunks).planSegments ++ chunk.planSegments⟩ := by
  simp [concat]

/-- What is shown of a text without citations: in plan mode by the plan parser, otherwise all. -/
structure TextRead (parser : AssistantTextStreamParser) (past : Str) (out : AssistantTextChunk) :
    Prop where
  plain : parser.planMode = false → out.visibleText = past ∧ out.planSegments = []
  plan : parser.planMode = true → ∃ segments, PlanRead parser.plan past segments ∧
    mapSegments segments = ⟨out.visibleText, out.planSegments⟩

/-- The parser has been given a text and has put out the chunk. -/
structure AssistantRead (planMode : Bool) (parser : AssistantTextStreamParser) (past : Str)
    (out : AssistantTextChunk) : Prop where
  planMode_eq : parser.planMode = planMode
  read : ∃ stripped, CitationsRead parser.citations past ⟨stripped, out.citations⟩ ∧
    TextRead parser stripped out

variable {planMode : Bool} {parser : AssistantTextStreamParser} {past stripped : Str}
  {out : AssistantTextChunk}

theorem TextRead.parseVisibleText (h : TextRead parser stripped out) (text : Str)
    (citations : List Str) :
    (parser.parseVisibleText text).1.planMode = parser.planMode ∧
      (parser.parseVisibleText text).1.citations = parser.citations ∧
      TextRead (parser.parseVisibleText text).1 (stripped ++ text)
        ⟨out.visibleText ++ (parser.parseVisibleText text).2.visibleText, citations,
          out.planSegments ++ (parser.parseVisibleText text).2.planSegments⟩ := by
  unfold AssistantTextStreamParser.parseVisibleText
  cases hmode : parser.planMode with
  | false =>
    obtain ⟨hvisible, hsegments⟩ := h.plain hmode
    refine ⟨hmode, rfl, ⟨fun _ => ?_, fun hplan => ?_⟩⟩
    · simp [hvisible, hsegments]
    · simp [hmode] at hplan
  | true =>
    obtain ⟨segments, hread, hmap⟩ := h.plan hmode
    refine ⟨rfl, rfl, ⟨fun hplain => ?_, fun _ => ⟨_, hread.pushStr text, ?_⟩⟩⟩
    · simp at hplain
    · rw [mapSegments_append, hmap]
      rfl

theorem assistantRead_chunks (planMode : Bool) (chunks : List Str) :
    AssistantRead planMode (Run.after AssistantTextStreamParser.push (.new planMode) chunks)
      chunks.flatten
      (.concat (Run.outputs AssistantTextStreamParser.push (.new planMode) chunks)) := by
  refine Run.invariant _ _ (P := fun past state out =>
    AssistantRead planMode state past.flatten (.concat out)) ?_ ?_ chunks
  · refine ⟨rfl, [], citationsRead_new, ⟨fun _ => ⟨rfl, rfl⟩, fun _ => ⟨[], ⟨rfl, rfl, .nil none⟩, rfl⟩⟩⟩
  · intro past state out chunk h
    rw [List.flatten_append, List.flatten_singleton, AssistantTextStreamParser.push,
      AssistantTextChunk.concat_append]
    obtain ⟨hmode, stripped, hcitations, htext⟩ := h
    have hpush := hcitations.pushStr chunk
    have hread : TextRead { state with citations := (state.citations.pushStr chunk).1 } stripped
        (.concat out) := ⟨htext.plain, htext.plan⟩
    obtain ⟨hplanMode, hsame, hparsed⟩ := hread.parseVisibleText
      (state.citations.pushStr chunk).2.visibleText
      ((AssistantTextChunk.concat out).citations ++ (state.citations.pushStr chunk).2.extracted)
    have hcitationParser : (state.pushStr chunk).1.citations = (state.citations.pushStr chunk).1 :=
      hsame
    refine ⟨hplanMode.trans hmode, _, ?_, hparsed⟩
    rw [hcitationParser]
    exact hpush

/-- What a text without citations comes to: in plan mode by its lines, otherwise all of it. -/
structure TextShown (planMode : Bool) (stripped : Str) (out : AssistantTextChunk) : Prop where
  plain : planMode = false → out.visibleText = stripped ∧ out.planSegments = []
  plan : planMode = true → ∃ segments,
    atoms segments = atoms (readLines [planSpec] none (linesInclusive stripped)) ∧
    WellFormed none segments none ∧ mapSegments segments = ⟨out.visibleText, out.planSegments⟩

/-- What the end of the text adds, an empty tail or none being the same. -/
theorem finish_eq (parser : AssistantTextStreamParser) :
    let citations := parser.citations.finish
    let parsed := AssistantTextStreamParser.parseVisibleText
      { parser with citations := citations.1 } citations.2.visibleText
    let tail := if parsed.1.planMode then parsed.1.plan.finish.2 else .empty
    parser.finish.2 = ⟨parsed.2.visibleText ++ tail.visibleText, citations.2.extracted,
      parsed.2.planSegments ++ tail.extracted⟩ := by
  dsimp only [AssistantTextStreamParser.finish]
  generalize AssistantTextStreamParser.parseVisibleText _ _ = parsed
  cases hmode : parsed.1.planMode with
  | false => simp [StreamTextChunk.empty]
  | true =>
    generalize parsed.1.plan.finish = finished
    by_cases hempty : finished.2.isEmpty = true
    · have hnil : finished.2.visibleText = [] ∧ finished.2.extracted = [] := by
        simpa [isEmpty] using hempty
      simp [hnil]
    · simp [hempty]

theorem parseChunks_spec (planMode : Bool) (chunks : List Str) :
    (parseChunks planMode chunks).citations = (stripCitations chunks.flatten).extracted ∧
      TextShown planMode (stripCitations chunks.flatten).visibleText
        (parseChunks planMode chunks) := by
  rw [parseChunks, AssistantTextChunk.concat_append]
  obtain ⟨hmode, stripped, hcitations, htext⟩ := assistantRead_chunks planMode chunks
  generalize Run.after AssistantTextStreamParser.push (.new planMode) chunks = parser at *
  generalize AssistantTextChunk.concat _ = out at *
  have hfinish := hcitations.finish
  have hread : TextRead { parser with citations := parser.citations.finish.1 } stripped out :=
    ⟨htext.plain, htext.plan⟩
  obtain ⟨hplanMode, -, hparsed⟩ := hread.parseVisibleText
    parser.citations.finish.2.visibleText (out.citations ++ parser.citations.finish.2.extracted)
  rw [finish_eq]
  generalize AssistantTextStreamParser.parseVisibleText _ _ = parsed at hplanMode hparsed ⊢
  have hvisible : stripped ++ parser.citations.finish.2.visibleText =
      (stripCitations chunks.flatten).visibleText := congrArg visibleText hfinish
  refine ⟨congrArg extracted hfinish, ?_⟩
  rw [hvisible] at hparsed
  replace hplanMode : parsed.1.planMode = planMode := hplanMode.trans hmode
  constructor
  · intro hplain
    rw [hplain] at hplanMode
    obtain ⟨hshown, hsegments⟩ := hparsed.plain hplanMode
    simpa [hplanMode, StreamTextChunk.empty] using And.intro hshown hsegments
  · intro hplan
    rw [hplan] at hplanMode
    obtain ⟨segments, hsegments, hmap⟩ := hparsed.plan hplanMode
    obtain ⟨hatoms, hwell⟩ := hsegments.finish
    refine ⟨_, hatoms, hwell, ?_⟩
    rw [mapSegments_append, hmap, hplanMode]
    simp [StreamTextChunk.append, ProposedPlanParser.finish]

/-! ## Plan segments -/

/-- The segment of the line parser that the plan segment comes from. -/
def ProposedPlanSegment.tagged : ProposedPlanSegment → TaggedLineSegment PlanTag
  | .normal text => .normal text
  | .proposedPlanStart => .tagStart .proposedPlan
  | .proposedPlanDelta text => .tagDelta .proposedPlan text
  | .proposedPlanEnd => .tagEnd .proposedPlan

open ProposedPlanSegment

/-- Adjacent plain texts and adjacent texts of a plan put together. -/
def mergePlanSegments (segments : List ProposedPlanSegment) : List ProposedPlanSegment :=
  (mergeSegments (segments.map tagged)).map mapSegment

/-- Starts and ends alternate, the text of a plan stands between them and plain text outside, and
no plan is left open. -/
def wellBracketed : Bool → List ProposedPlanSegment → Bool
  | inside, [] => !inside
  | false, .normal _ :: rest => wellBracketed false rest
  | false, .proposedPlanStart :: rest => wellBracketed true rest
  | true, .proposedPlanDelta _ :: rest => wellBracketed true rest
  | true, .proposedPlanEnd :: rest => wellBracketed false rest
  | _, _ => false

def ProposedPlanSegment.hasText : ProposedPlanSegment → Bool
  | .normal text => text ≠ []
  | .proposedPlanDelta text => text ≠ []
  | _ => true

theorem map_tagged_map (segments : List (TaggedLineSegment PlanTag)) :
    (segments.map mapSegment).map tagged = segments := by
  rw [List.map_map]
  exact (List.map_congr_left fun segment _ => by cases segment <;> rfl).trans (List.map_id _)

theorem mergePlanSegments_map (segments : List (TaggedLineSegment PlanTag)) :
    mergePlanSegments (segments.map mapSegment) = (mergeSegments segments).map mapSegment := by
  rw [mergePlanSegments, map_tagged_map]

theorem wellBracketed_of_bracketed {active : Option PlanTag}
    {segments : List (TaggedLineSegment PlanTag)} (h : Bracketed active segments none) :
    wellBracketed active.isSome (segments.map mapSegment) = true := by
  generalize hlast : (none : Option PlanTag) = last at h
  induction h with
  | nil active => rw [← hlast]; rfl
  | normal text _ ih => exact ih hlast
  | tagStart tag _ ih => exact ih hlast
  | tagDelta tag text _ ih => exact ih hlast
  | tagEnd tag _ ih => exact ih hlast

theorem hasText_mapSegment {segment : TaggedLineSegment PlanTag} (h : segment.atoms ≠ []) :
    (mapSegment segment).hasText = true := by
  cases segment with
  | normal text => simpa [mapSegment, hasText, TaggedLineSegment.atoms] using h
  | tagDelta tag text =>
    simpa [mapSegment, hasText, TaggedLineSegment.atoms] using h
  | tagStart tag => rfl
  | tagEnd tag => rfl

/-! ## Plain text -/

/-- The lines outside of plans: a plan goes from a line that is the opening tag to the next one
that is the closing tag, or to the end. -/
def outsidePlans : Bool → List Str → Str
  | _, [] => []
  | false, line :: lines =>
    if trim line = openTag then outsidePlans true lines else line ++ outsidePlans false lines
  | true, line :: lines => outsidePlans (trim line ≠ closeTag) lines

/-- What the lines are, one by one; a plan that is still open ends with the last of them. -/
def lineSegments : Bool → List Str → List ProposedPlanSegment
  | false, [] => []
  | true, [] => [.proposedPlanEnd]
  | false, line :: lines =>
    if trim line = openTag then .proposedPlanStart :: lineSegments true lines
    else .normal line :: lineSegments false lines
  | true, line :: lines =>
    if trim line = closeTag then .proposedPlanEnd :: lineSegments false lines
    else .proposedPlanDelta line :: lineSegments true lines

theorem plainText_atoms (segments : List (TaggedLineSegment PlanTag)) :
    (atoms segments).flatMap plainText = segments.flatMap plainText := by
  rw [atoms, List.flatMap_assoc]
  refine List.flatMap_congr fun segment _ => ?_
  cases segment with
  | normal text => simp [TaggedLineSegment.atoms, plainText, List.flatMap_map]
  | tagDelta tag text => simp [TaggedLineSegment.atoms, plainText]
  | tagStart tag => rfl
  | tagEnd tag => rfl

theorem trim_stripNewline (line : Str) : trim (stripNewline line) = trim line := by
  unfold stripNewline
  split_ifs with hlast
  · obtain ⟨body, rfl⟩ := List.getLast?_eq_some_iff.mp hlast
    rw [List.dropLast_concat, trim_append_of_blank (by decide)]
  · rfl

section Lines

open TaggedLineParser

/-- Outside of a plan only the opening tag counts. -/
theorem lineSegment_outside (line : Str) :
    (atLineStart [planSpec] none).lineSegment line =
      if trim line = openTag then .tagStart .proposedPlan else .normal line := by
  have hopen : (atLineStart [planSpec] none).matchOpen (trim line) =
      if trim line = openTag then some .proposedPlan else none := by
    by_cases h : openTag = trim line
    · simp [matchOpen, atLineStart, planSpec, h]
    · simp [matchOpen, atLineStart, planSpec, h, Ne.symm h]
  unfold lineSegment
  rw [trim_stripNewline]
  dsimp only
  rw [hopen]
  split_ifs
  · rfl
  · dsimp only
    split
    · exact if_neg (by simp [atLineStart])
    · rfl

/-- Inside of one only the closing tag does. -/
theorem lineSegment_inside (line : Str) :
    (atLineStart [planSpec] (some .proposedPlan)).lineSegment line =
      if trim line = closeTag then .tagEnd .proposedPlan else .tagDelta .proposedPlan line := by
  have hclose : (atLineStart [planSpec] (some .proposedPlan)).matchClose (trim line) =
      if trim line = closeTag then some .proposedPlan else none := by
    by_cases h : closeTag = trim line
    · simp [matchClose, atLineStart, planSpec, h]
    · simp [matchClose, atLineStart, planSpec, h, Ne.symm h]
  unfold lineSegment
  rw [trim_stripNewline]
  dsimp only
  rw [hclose]
  by_cases h : trim line = closeTag
  · simp [h, atLineStart]
  · simp [h, atLineStart, textSegment]

end Lines

theorem map_readLines (active : Option PlanTag) (lines : List Str) :
    (readLines [planSpec] active lines).map mapSegment = lineSegments active.isSome lines := by
  induction lines generalizing active with
  | nil => cases active <;> rfl
  | cons line lines ih =>
    rw [readLines, List.map_cons, ih]
    rcases active with _ | ⟨⟨⟩⟩
    · rw [lineSegment_outside]
      by_cases hopen : trim line = openTag
      all_goals simp [hopen, lineSegments, mapSegment, activeAfter]
    · rw [lineSegment_inside]
      by_cases hclose : trim line = closeTag
      all_goals simp [hclose, lineSegments, mapSegment, activeAfter]

theorem plainText_lineSegments (inside : Bool) (lines : List Str) :
    ((lineSegments inside lines).map tagged).flatMap plainText = outsidePlans inside lines := by
  induction lines generalizing inside with
  | nil => cases inside <;> rfl
  | cons line lines ih =>
    cases inside with
    | false => by_cases hopen : trim line = openTag <;>
        simp [lineSegments, outsidePlans, tagged, plainText, hopen, ih]
    | true => by_cases hclose : trim line = closeTag <;>
        simp [lineSegments, outsidePlans, tagged, plainText, hclose, ih]

theorem plainText_readLines (active : Option PlanTag) (lines : List Str) :
    (readLines [planSpec] active lines).flatMap plainText = outsidePlans active.isSome lines := by
  rw [← map_tagged_map (readLines [planSpec] active lines), map_readLines, plainText_lineSegments]

/-! ## However the text is cut -/

namespace TextShown

variable {out out' : AssistantTextChunk}

variable (h : TextShown planMode stripped out)
include h

theorem visibleText_eq :
    out.visibleText =
      if planMode then outsidePlans false (linesInclusive stripped) else stripped := by
  cases planMode with
  | false => exact (h.plain rfl).1
  | true =>
    obtain ⟨segments, hatoms, -, hmap⟩ := h.plan rfl
    calc out.visibleText = segments.flatMap plainText := (congrArg visibleText hmap).symm
      _ = (atoms (readLines [planSpec] none (linesInclusive stripped))).flatMap
            plainText := by rw [← hatoms, plainText_atoms]
      _ = outsidePlans false (linesInclusive stripped) := by
            rw [plainText_atoms, plainText_readLines]
            rfl

/-- The segments are the images of bracketed segments without empty texts, and their atoms depend
on the text only. -/
theorem exists_segments :
    ∃ segments, out.planSegments = segments.map mapSegment ∧ WellFormed none segments none ∧
      atoms segments = if planMode then
        atoms (readLines [planSpec] none (linesInclusive stripped)) else [] := by
  cases planMode with
  | false => exact ⟨[], (h.plain rfl).2, .nil none, rfl⟩
  | true =>
    obtain ⟨segments, hatoms, hwell, hmap⟩ := h.plan rfl
    exact ⟨segments, (congrArg extracted hmap).symm, hwell, hatoms⟩

theorem wellBracketed : wellBracketed false out.planSegments = true := by
  obtain ⟨segments, hsegments, hwell, -⟩ := h.exists_segments
  rw [hsegments]
  exact wellBracketed_of_bracketed hwell.bracketed

theorem hasText : ∀ segment ∈ out.planSegments, segment.hasText = true := by
  obtain ⟨segments, hsegments, hwell, -⟩ := h.exists_segments
  rw [hsegments]
  intro segment hmem
  obtain ⟨tagged, htagged, rfl⟩ := List.mem_map.mp hmem
  exact hasText_mapSegment (hwell.noEmptyText tagged htagged)

theorem mergePlanSegments_eq :
    mergePlanSegments out.planSegments = mergePlanSegments
      (if planMode then lineSegments false (linesInclusive stripped) else []) := by
  obtain ⟨segments, hsegments, -, hatoms⟩ := h.exists_segments
  rw [hsegments, mergePlanSegments_map, mergeSegments_eq, hatoms]
  cases planMode with
  | false => rfl
  | true =>
    have hlines := map_readLines none (linesInclusive stripped)
    rw [Option.isSome_none] at hlines
    rw [if_pos rfl, if_pos rfl, ← hlines, mergePlanSegments_map, mergeSegments_eq]

end TextShown

/-- The citations, the visible text and the merged plan segments are those of the whole text,
the segments are bracketed, and what is visible is the text without its citations and, in plan
mode, without the plans of what is left.  The merged segments are what the lines of it are. -/
theorem parseChunks_streams (planMode : Bool) (chunks : List Str) :
    let streamed := parseChunks planMode chunks
    let whole := parseChunks planMode [chunks.flatten]
    streamed.visibleText = whole.visibleText ∧ streamed.citations = whole.citations ∧
    mergePlanSegments streamed.planSegments = mergePlanSegments whole.planSegments ∧
    wellBracketed false streamed.planSegments = true ∧
    (∀ segment ∈ streamed.planSegments, segment.hasText = true) ∧
    ∃ stripped, Hidden citationSpec.opening citationSpec.closing chunks.flatten stripped
        streamed.citations ∧
      streamed.visibleText =
        (if planMode then outsidePlans false (linesInclusive stripped) else stripped) ∧
      mergePlanSegments streamed.planSegments = mergePlanSegments
        (if planMode then lineSegments false (linesInclusive stripped) else []) := by
  obtain ⟨hcitations, hshown⟩ := parseChunks_spec planMode chunks
  obtain ⟨hcitations', hshown'⟩ := parseChunks_spec planMode [chunks.flatten]
  rw [List.flatten_singleton] at hcitations' hshown'
  refine ⟨?_, hcitations.trans hcitations'.symm,
    hshown.mergePlanSegments_eq.trans hshown'.mergePlanSegments_eq.symm, hshown.wellBracketed,
    hshown.hasText, (stripCitations chunks.flatten).visibleText, ?_, hshown.visibleText_eq,
    hshown.mergePlanSegments_eq⟩
  · rw [hshown.visibleText_eq, hshown'.visibleText_eq]
  · rw [hcitations]
    exact hidden_hide citationSpec chunks.flatten

end Codex.StreamParser
