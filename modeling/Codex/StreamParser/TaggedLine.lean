import Codex.Lib.Rows
import Codex.Lib.Run
import Codex.Lib.Text

/-!
# Tags that stand alone on a line

A parser that takes a text in pieces and splits it into plain text and the contents of tags,
where a tag is a line that is the tag and nothing else but blanks.  A line is kept back as long
as it could be a tag.

A piece of text can reach the segments in one or in several parts, depending on where the
pieces were cut; `pushSegment` puts adjacent parts together.  Cut into single characters
(`atoms`), the segments depend on the text only: they are those of a machine that takes one
character at a time (`parse_spec`), and line by line those of `readLines`, which looks at whole
lines (`atoms_readLines`).
-/

namespace Codex.StreamParser

open Text List

variable {τ : Type*}

structure TagSpec (τ : Type*) where
  opening : Str
  closing : Str
  tag : τ

inductive TaggedLineSegment (τ : Type*) where
  | normal (text : Str)
  | tagStart (tag : τ)
  | tagDelta (tag : τ) (text : Str)
  | tagEnd (tag : τ)
  deriving DecidableEq

variable [DecidableEq τ]

/-- Text is put together with text of the same kind before it. -/
def pushSegment (segments : List (TaggedLineSegment τ)) (segment : TaggedLineSegment τ) :
    List (TaggedLineSegment τ) :=
  match segment with
  | .normal delta =>
    if delta = [] then segments
    else match segments.getLast? with
      | some (.normal existing) => segments.dropLast ++ [.normal (existing ++ delta)]
      | _ => segments ++ [.normal delta]
  | .tagDelta tag delta =>
    if delta = [] then segments
    else match segments.getLast? with
      | some (.tagDelta existingTag existing) =>
        if existingTag = tag then segments.dropLast ++ [.tagDelta existingTag (existing ++ delta)]
        else segments ++ [.tagDelta tag delta]
      | _ => segments ++ [.tagDelta tag delta]
  | .tagStart tag => segments ++ [.tagStart tag]
  | .tagEnd tag => segments ++ [.tagEnd tag]

structure TaggedLineParser (τ : Type*) where
  specs : List (TagSpec τ)
  activeTag : Option τ
  detectTag : Bool
  lineBuffer : Str

namespace TaggedLineParser

protected def new (specs : List (TagSpec τ)) : TaggedLineParser τ := ⟨specs, none, true, []⟩

variable (parser : TaggedLineParser τ)

/-- Text of the open tag, or plain text. -/
def textSegment (text : Str) : TaggedLineSegment τ :=
  match parser.activeTag with
  | some tag => .tagDelta tag text
  | none => .normal text

def pushText (text : Str) (segments : List (TaggedLineSegment τ)) : List (TaggedLineSegment τ) :=
  pushSegment segments (parser.textSegment text)

def isTagPrefix (slug : Str) : Bool :=
  parser.specs.any fun spec => trimEnd slug <+: spec.opening || trimEnd slug <+: spec.closing

def matchOpen (slug : Str) : Option τ :=
  (parser.specs.find? fun spec => spec.opening = slug).map TagSpec.tag

def matchClose (slug : Str) : Option τ :=
  (parser.specs.find? fun spec => spec.closing = slug).map TagSpec.tag

end TaggedLineParser

def stripNewline (line : Str) : Str := if line.getLast? = some '\n' then line.dropLast else line

namespace TaggedLineParser

variable (parser : TaggedLineParser τ)

/-- What a whole line is: a tag that can be opened or closed, or text. -/
def lineSegment (line : Str) : TaggedLineSegment τ :=
  let slug := trim (stripNewline line)
  match parser.matchOpen slug, parser.activeTag with
  | some tag, none => .tagStart tag
  | _, _ =>
    match parser.matchClose slug with
    | some tag => if parser.activeTag = some tag then .tagEnd tag else parser.textSegment line
    | none => parser.textSegment line

/-- The open tag after a segment. -/
def activeAfter (active : Option τ) : TaggedLineSegment τ → Option τ
  | .tagStart tag => some tag
  | .tagEnd _ => none
  | _ => active

def finishLine (segments : List (TaggedLineSegment τ)) :
    TaggedLineParser τ × List (TaggedLineSegment τ) :=
  let segment := parser.lineSegment parser.lineBuffer
  ({ parser with
      activeTag := activeAfter parser.activeTag segment
      detectTag := true
      lineBuffer := [] }, pushSegment segments segment)

/-- The loop over the characters: the parser, a run of text not yet pushed, the segments. -/
structure Loop (τ : Type*) where
  parser : TaggedLineParser τ
  run : Str
  segments : List (TaggedLineSegment τ)

/-- One character: at the beginning of a line it is held back as long as the line may be a tag. -/
def Loop.step (loop : Loop τ) (ch : Char) : Loop τ :=
  if loop.parser.detectTag then
    let segments :=
      if loop.run = [] then loop.segments else loop.parser.pushText loop.run loop.segments
    let line := loop.parser.lineBuffer ++ [ch]
    if ch = '\n' then
      let (parser, segments) := finishLine { loop.parser with lineBuffer := line } segments
      ⟨parser, [], segments⟩
    else if trimStart line = [] ∨ loop.parser.isTagPrefix (trimStart line) then
      ⟨{ loop.parser with lineBuffer := line }, [], segments⟩
    else
      ⟨{ loop.parser with lineBuffer := [], detectTag := false }, [],
        loop.parser.pushText line segments⟩
  else
    let run := loop.run ++ [ch]
    if ch = '\n' then
      ⟨{ loop.parser with detectTag := true }, [], loop.parser.pushText run loop.segments⟩
    else ⟨loop.parser, run, loop.segments⟩

def parse (delta : Str) : TaggedLineParser τ × List (TaggedLineSegment τ) :=
  let loop := delta.foldl Loop.step ⟨parser, [], []⟩
  (loop.parser,
    if loop.run = [] then loop.segments else loop.parser.pushText loop.run loop.segments)

def finish : TaggedLineParser τ × List (TaggedLineSegment τ) :=
  let (active, segments) :=
    if parser.lineBuffer = [] then (parser.activeTag, [])
    else
      let segment := parser.lineSegment parser.lineBuffer
      (activeAfter parser.activeTag segment, pushSegment [] segment)
  let segments := match active with
    | some tag => pushSegment segments (.tagEnd tag)
    | none => segments
  (⟨parser.specs, none, true, []⟩, segments)

end TaggedLineParser

/-! ## Segments cut into characters -/

/-- The segment, its text cut into single characters. -/
def TaggedLineSegment.atoms : TaggedLineSegment τ → List (TaggedLineSegment τ)
  | .normal text => text.map fun c => .normal [c]
  | .tagDelta tag text => text.map fun c => .tagDelta tag [c]
  | .tagStart tag => [.tagStart tag]
  | .tagEnd tag => [.tagEnd tag]

def atoms (segments : List (TaggedLineSegment τ)) : List (TaggedLineSegment τ) :=
  segments.flatMap TaggedLineSegment.atoms

/-- Adjacent text of the same kind put together. -/
def mergeSegments (segments : List (TaggedLineSegment τ)) : List (TaggedLineSegment τ) :=
  segments.foldl pushSegment []

section Atoms

variable {segments more : List (TaggedLineSegment τ)} {segment : TaggedLineSegment τ}

omit [DecidableEq τ] in
@[simp] theorem atoms_nil : atoms ([] : List (TaggedLineSegment τ)) = [] := rfl

omit [DecidableEq τ] in
@[simp] theorem atoms_append : atoms (segments ++ more) = atoms segments ++ atoms more := by
  simp [atoms]

omit [DecidableEq τ] in
@[simp] theorem atoms_singleton : atoms [segment] = segment.atoms := by simp [atoms]

/-- What a push can do: leave out empty text, put text together, or append. -/
inductive Pushed : List (TaggedLineSegment τ) → TaggedLineSegment τ → List (TaggedLineSegment τ) →
    Prop where
  | empty {segments : List (TaggedLineSegment τ)} {segment : TaggedLineSegment τ}
      (h : segment.atoms = []) : Pushed segments segment segments
  | behind (segments : List (TaggedLineSegment τ)) {segment : TaggedLineSegment τ}
      (h : segment.atoms ≠ []) : Pushed segments segment (segments ++ [segment])
  | normal (segments : List (TaggedLineSegment τ)) (existing delta : Str) :
      Pushed (segments ++ [.normal existing]) (.normal delta)
        (segments ++ [.normal (existing ++ delta)])
  | tagDelta (segments : List (TaggedLineSegment τ)) (tag : τ) (existing delta : Str) :
      Pushed (segments ++ [.tagDelta tag existing]) (.tagDelta tag delta)
        (segments ++ [.tagDelta tag (existing ++ delta)])

theorem pushed_pushSegment (segments : List (TaggedLineSegment τ))
    (segment : TaggedLineSegment τ) : Pushed segments segment (pushSegment segments segment) := by
  cases segment with
  | normal delta =>
    dsimp only [pushSegment]
    split_ifs with hdelta
    · exact .empty (by simp [hdelta, TaggedLineSegment.atoms])
    · split
      · rename_i existing hlast
        obtain ⟨init, rfl⟩ := getLast?_eq_some_iff.mp hlast
        rw [dropLast_concat]
        exact .normal init existing delta
      · exact .behind segments (by simpa [TaggedLineSegment.atoms] using hdelta)
  | tagDelta tag delta =>
    dsimp only [pushSegment]
    split_ifs with hdelta
    · exact .empty (by simp [hdelta, TaggedLineSegment.atoms])
    · have hnew : (TaggedLineSegment.tagDelta tag delta).atoms ≠ [] := by
        simpa [TaggedLineSegment.atoms] using hdelta
      split
      · rename_i existingTag existing hlast
        split_ifs with htag
        · cases htag
          obtain ⟨init, rfl⟩ := getLast?_eq_some_iff.mp hlast
          rw [dropLast_concat]
          exact .tagDelta init _ existing delta
        · exact .behind segments hnew
      · exact .behind segments hnew
  | tagStart tag | tagEnd tag => exact .behind segments (cons_ne_nil _ _)

@[simp] theorem atoms_pushSegment : atoms (pushSegment segments segment) =
    atoms segments ++ segment.atoms := by
  have hpushed := pushed_pushSegment segments segment
  generalize pushSegment segments segment = result at hpushed
  cases hpushed with
  | empty h => rw [h, append_nil]
  | behind => rw [atoms_append, atoms_singleton]
  | normal | tagDelta => simp [TaggedLineSegment.atoms]

/-- No segment has an empty text. -/
def NoEmptyText (segments : List (TaggedLineSegment τ)) : Prop :=
  ∀ segment ∈ segments, segment.atoms ≠ []

theorem NoEmptyText.pushSegment (h : NoEmptyText segments) :
    NoEmptyText (StreamParser.pushSegment segments segment) := by
  have hpushed := pushed_pushSegment segments segment
  generalize StreamParser.pushSegment segments segment = result at hpushed
  intro other hother
  cases hpushed with
  | empty => exact h other hother
  | behind _ hne =>
    rcases mem_append.mp hother with hold | hnew
    · exact h other hold
    · cases mem_singleton.mp hnew
      exact hne
  | normal init existing delta | tagDelta init tag existing delta =>
    rcases mem_append.mp hother with hold | hnew
    · exact h other (mem_append_left _ hold)
    · cases mem_singleton.mp hnew
      have hlast := h _ (mem_append_right _ (mem_singleton_self _))
      simp_all [TaggedLineSegment.atoms]

/-- Text can be pushed in parts. -/
theorem pushSegment_pushSegment_normal (text more : Str) :
    pushSegment (pushSegment segments (.normal text)) (.normal more) =
      pushSegment segments (.normal (text ++ more)) := by
  by_cases htext : text = []
  · simp [htext, pushSegment]
  by_cases hmore : more = []
  · simp [hmore, pushSegment]
  rcases eq_nil_or_concat segments with rfl | ⟨init, last, rfl⟩
  · simp [pushSegment, htext]
  · cases last <;> simp [pushSegment, htext]

theorem pushSegment_pushSegment_tagDelta (tag : τ) (text more : Str) :
    pushSegment (pushSegment segments (.tagDelta tag text)) (.tagDelta tag more) =
      pushSegment segments (.tagDelta tag (text ++ more)) := by
  by_cases htext : text = []
  · simp [htext, pushSegment]
  by_cases hmore : more = []
  · simp [hmore, pushSegment]
  rcases eq_nil_or_concat segments with rfl | ⟨init, last, rfl⟩
  · simp [pushSegment, htext]
  · cases last with
    | tagDelta existingTag existing =>
      by_cases htag : existingTag = tag <;> simp [pushSegment, htext, htag]
    | _ => simp [pushSegment, htext, hmore]

theorem foldl_pushSegment_atoms (segments : List (TaggedLineSegment τ))
    (segment : TaggedLineSegment τ) :
    segment.atoms.foldl pushSegment segments = pushSegment segments segment := by
  cases segment with
  | normal text | tagDelta tag text =>
    induction text using List.reverseRecOn with
    | nil => simp [TaggedLineSegment.atoms, pushSegment]
    | append_singleton text c ih =>
      simp only [TaggedLineSegment.atoms, map_append, foldl_append] at ih ⊢
      rw [ih]
      first
      | exact pushSegment_pushSegment_normal text [c]
      | exact pushSegment_pushSegment_tagDelta _ text [c]
  | tagStart tag => rfl
  | tagEnd tag => rfl

/-- The merged segments depend on the characters only. -/
theorem mergeSegments_eq (segments : List (TaggedLineSegment τ)) :
    mergeSegments segments = (atoms segments).foldl pushSegment [] := by
  unfold mergeSegments
  induction segments using List.reverseRecOn with
  | nil => rfl
  | append_singleton segments segment ih =>
    rw [foldl_append, atoms_append, foldl_append, ← ih, atoms_singleton, foldl_pushSegment_atoms]
    rfl

end Atoms

/-! ## Character by character -/

namespace TaggedLineParser

/-- What one character does by itself. -/
def readChar (parser : TaggedLineParser τ) (ch : Char) :
    TaggedLineParser τ × List (TaggedLineSegment τ) :=
  if parser.detectTag then
    let line := parser.lineBuffer ++ [ch]
    if ch = '\n' then finishLine { parser with lineBuffer := line } []
    else if trimStart line = [] ∨ parser.isTagPrefix (trimStart line) then
      ({ parser with lineBuffer := line }, [])
    else ({ parser with lineBuffer := [], detectTag := false }, [parser.textSegment line])
  else ({ parser with detectTag := ch = '\n' }, [parser.textSegment [ch]])

variable {parser : TaggedLineParser τ} {delta : Str}

/-- What the loop has come to: where the machine is, with the run still to be pushed. -/
structure Loop.Follows (parser : TaggedLineParser τ) (delta : Str) (loop : Loop τ) : Prop where
  parser_eq : loop.parser = Run.after readChar parser delta
  atoms_eq : atoms loop.segments ++ (loop.parser.textSegment loop.run).atoms =
    atoms (Run.outputs readChar parser delta)
  run_eq : loop.parser.detectTag = true → loop.run = []

omit [DecidableEq τ] in
theorem atoms_textSegment_nil (parser : TaggedLineParser τ) :
    (parser.textSegment []).atoms = [] := by
  unfold textSegment
  cases parser.activeTag <;> rfl

omit [DecidableEq τ] in
theorem atoms_textSegment_append (parser : TaggedLineParser τ) (text more : Str) :
    (parser.textSegment (text ++ more)).atoms =
      (parser.textSegment text).atoms ++ (parser.textSegment more).atoms := by
  unfold textSegment
  cases parser.activeTag <;> simp [TaggedLineSegment.atoms]

theorem Loop.Follows.step {loop : Loop τ} (h : loop.Follows parser delta) (ch : Char) :
    (loop.step ch).Follows parser (delta ++ [ch]) := by
  obtain ⟨state, run, segments⟩ := loop
  obtain ⟨hparser, hatoms, hrun⟩ := h
  have hafter : Run.after readChar parser (delta ++ [ch]) = (readChar state ch).1 := by
    rw [Run.after_concat, ← hparser]
  have houtputs : atoms (Run.outputs readChar parser (delta ++ [ch])) =
      atoms segments ++ (state.textSegment run).atoms ++ atoms (readChar state ch).2 := by
    rw [Run.outputs_concat, atoms_append, ← hatoms, ← hparser]
  suffices hstep : let next := Loop.step ⟨state, run, segments⟩ ch
      next.parser = (readChar state ch).1 ∧
      atoms next.segments ++ (next.parser.textSegment next.run).atoms =
        atoms segments ++ (state.textSegment run).atoms ++ atoms (readChar state ch).2 ∧
      (next.parser.detectTag = true → next.run = []) from
    ⟨hstep.1.trans hafter.symm, hstep.2.1.trans houtputs.symm, hstep.2.2⟩
  cases hdetect : state.detectTag with
  | true =>
    cases hrun hdetect
    by_cases hnewline : ch = '\n'
    · simp [Loop.step, readChar, hdetect, hnewline, finishLine, atoms_textSegment_nil]
    by_cases hkeep : trimStart (state.lineBuffer ++ [ch]) = [] ∨
        state.isTagPrefix (trimStart (state.lineBuffer ++ [ch]))
    · simp [Loop.step, readChar, hdetect, hnewline, hkeep, atoms_textSegment_nil]
    · simp [Loop.step, readChar, hdetect, hnewline, hkeep, pushText, atoms_textSegment_nil]
  | false =>
    by_cases hnewline : ch = '\n'
    · simp [Loop.step, readChar, hdetect, hnewline, pushText, atoms_textSegment_nil,
        atoms_textSegment_append]
    · simp [Loop.step, readChar, hdetect, hnewline, atoms_textSegment_append]
      rw [← hdetect]

/-- However the text is cut, the parser follows the machine. -/
theorem parse_spec (parser : TaggedLineParser τ) (delta : Str) :
    (parser.parse delta).1 = Run.after readChar parser delta ∧
      atoms (parser.parse delta).2 = atoms (Run.outputs readChar parser delta) := by
  have hloop : (delta.foldl Loop.step ⟨parser, [], []⟩).Follows parser delta := by
    induction delta using List.reverseRecOn with
    | nil => exact ⟨rfl, by simp [atoms_textSegment_nil], fun _ => rfl⟩
    | append_singleton delta ch ih =>
      rw [foldl_append]
      exact ih.step ch
  refine ⟨hloop.parser_eq, ?_⟩
  rw [← hloop.atoms_eq]
  dsimp only [parse]
  split_ifs with hrun
  · rw [hrun, atoms_textSegment_nil, append_nil]
  · rw [pushText, atoms_pushSegment]

end TaggedLineParser

/-! ## Brackets -/

/-- The segments lead from one open tag to the other: a tag is opened where none is open, its
text and its end stand inside, and plain text stands outside. -/
inductive Bracketed : Option τ → List (TaggedLineSegment τ) → Option τ → Prop where
  | nil (active : Option τ) : Bracketed active [] active
  | normal {segments : List (TaggedLineSegment τ)} {last : Option τ} (text : Str)
      (h : Bracketed none segments last) : Bracketed none (.normal text :: segments) last
  | tagStart {segments : List (TaggedLineSegment τ)} {last : Option τ} (tag : τ)
      (h : Bracketed (some tag) segments last) : Bracketed none (.tagStart tag :: segments) last
  | tagDelta {segments : List (TaggedLineSegment τ)} {last : Option τ} (tag : τ) (text : Str)
      (h : Bracketed (some tag) segments last) :
      Bracketed (some tag) (.tagDelta tag text :: segments) last
  | tagEnd {segments : List (TaggedLineSegment τ)} {last : Option τ} (tag : τ)
      (h : Bracketed none segments last) : Bracketed (some tag) (.tagEnd tag :: segments) last

namespace Bracketed

variable {first middle last : Option τ} {segments more : List (TaggedLineSegment τ)}
  {segment : TaggedLineSegment τ}

omit [DecidableEq τ] in
theorem append (h : Bracketed first segments middle) (h' : Bracketed middle more last) :
    Bracketed first (segments ++ more) last := by
  induction h with
  | nil => exact h'
  | normal text _ ih => exact .normal text (ih h')
  | tagStart tag _ ih => exact .tagStart tag (ih h')
  | tagDelta tag text _ ih => exact .tagDelta tag text (ih h')
  | tagEnd tag _ ih => exact .tagEnd tag (ih h')

omit [DecidableEq τ] in
theorem split (h : Bracketed first (segments ++ more) last) :
    ∃ middle, Bracketed first segments middle ∧ Bracketed middle more last := by
  induction segments generalizing first with
  | nil => exact ⟨first, .nil first, h⟩
  | cons segment segments ih =>
    cases h with
    | normal text h =>
      obtain ⟨middle, hfront, hback⟩ := ih h
      exact ⟨middle, .normal text hfront, hback⟩
    | tagStart tag h =>
      obtain ⟨middle, hfront, hback⟩ := ih h
      exact ⟨middle, .tagStart tag hfront, hback⟩
    | tagDelta tag text h =>
      obtain ⟨middle, hfront, hback⟩ := ih h
      exact ⟨middle, .tagDelta tag text hfront, hback⟩
    | tagEnd tag h =>
      obtain ⟨middle, hfront, hback⟩ := ih h
      exact ⟨middle, .tagEnd tag hfront, hback⟩

/-- Putting text together changes no bracket. -/
theorem pushSegment (h : Bracketed first segments middle) (h' : Bracketed middle [segment] last) :
    Bracketed first (StreamParser.pushSegment segments segment) last := by
  have hpushed := pushed_pushSegment segments segment
  generalize StreamParser.pushSegment segments segment = result at hpushed
  cases hpushed with
  | empty hempty =>
    cases h' with
    | normal text hrest | tagDelta tag text hrest => cases hrest; exact h
    | tagStart | tagEnd => simp [TaggedLineSegment.atoms] at hempty
  | behind => exact h.append h'
  | normal segments existing delta =>
    obtain ⟨middle', hfront, hlast⟩ := h.split
    cases hlast
    cases h' with
    | normal _ hrest => exact hfront.append (.normal _ hrest)
  | tagDelta segments tag existing delta =>
    obtain ⟨middle', hfront, hlast⟩ := h.split
    cases hlast
    cases h' with
    | tagDelta _ _ hrest => exact hfront.append (.tagDelta _ _ hrest)

end Bracketed

/-- Segments as they are put out: bracketed, and without empty text. -/
structure WellFormed (first : Option τ) (segments : List (TaggedLineSegment τ)) (last : Option τ) :
    Prop where
  bracketed : Bracketed first segments last
  noEmptyText : NoEmptyText segments

namespace WellFormed

variable {first middle last : Option τ} {segments more : List (TaggedLineSegment τ)}
  {segment : TaggedLineSegment τ}

omit [DecidableEq τ] in
theorem nil (active : Option τ) : WellFormed active [] active :=
  ⟨.nil active, fun segment hmem => by cases hmem⟩

omit [DecidableEq τ] in
theorem append (h : WellFormed first segments middle) (h' : WellFormed middle more last) :
    WellFormed first (segments ++ more) last := by
  exact ⟨h.bracketed.append h'.bracketed, forall_mem_append.mpr ⟨h.noEmptyText, h'.noEmptyText⟩⟩

theorem pushSegment (h : WellFormed first segments middle) (h' : Bracketed middle [segment] last) :
    WellFormed first (pushSegment segments segment) last :=
  ⟨h.bracketed.pushSegment h', h.noEmptyText.pushSegment⟩

end WellFormed

namespace TaggedLineParser

variable (parser : TaggedLineParser τ)

omit [DecidableEq τ] in
theorem bracketed_textSegment (text : Str) :
    Bracketed parser.activeTag [parser.textSegment text] parser.activeTag := by
  unfold textSegment
  cases parser.activeTag with
  | none => exact .normal text (.nil none)
  | some tag => exact .tagDelta tag text (.nil (some tag))

omit [DecidableEq τ] in
theorem activeAfter_textSegment (text : Str) :
    activeAfter parser.activeTag (parser.textSegment text) = parser.activeTag := by
  unfold textSegment
  cases parser.activeTag <;> rfl

theorem bracketed_lineSegment (line : Str) :
    Bracketed parser.activeTag [parser.lineSegment line]
      (activeAfter parser.activeTag (parser.lineSegment line)) := by
  have htext : Bracketed parser.activeTag [parser.textSegment line]
      (activeAfter parser.activeTag (parser.textSegment line)) := by
    rw [activeAfter_textSegment]
    exact parser.bracketed_textSegment line
  unfold lineSegment
  dsimp only
  split
  · rename_i tag _ hactive
    rw [hactive]
    exact .tagStart tag (.nil _)
  · split
    · rename_i tag _
      split_ifs with hactive
      · rw [hactive]
        exact .tagEnd tag (.nil _)
      · exact htext
    · exact htext

theorem wellFormed_step {loop : Loop τ} {first : Option τ}
    (h : WellFormed first loop.segments loop.parser.activeTag) (ch : Char) :
    WellFormed first (loop.step ch).segments (loop.step ch).parser.activeTag := by
  have htext : ∀ {segments : List (TaggedLineSegment τ)} (text : Str),
      WellFormed first segments loop.parser.activeTag →
      WellFormed first (loop.parser.pushText text segments) loop.parser.activeTag :=
    fun text hsegments => hsegments.pushSegment (bracketed_textSegment _ text)
  have hrun : WellFormed first
      (if loop.run = [] then loop.segments else loop.parser.pushText loop.run loop.segments)
      loop.parser.activeTag := by
    split_ifs
    · exact h
    · exact htext loop.run h
  unfold Loop.step
  by_cases hdetect : loop.parser.detectTag = true
  · rw [if_pos hdetect]
    by_cases hnewline : ch = '\n'
    · rw [if_pos hnewline]
      exact hrun.pushSegment (bracketed_lineSegment
        { loop.parser with lineBuffer := loop.parser.lineBuffer ++ [ch] } _)
    · rw [if_neg hnewline]
      by_cases hkeep : trimStart (loop.parser.lineBuffer ++ [ch]) = [] ∨
          loop.parser.isTagPrefix (trimStart (loop.parser.lineBuffer ++ [ch]))
      · rw [if_pos hkeep]
        exact hrun
      · rw [if_neg hkeep]
        exact htext _ hrun
  · rw [if_neg hdetect]
    split_ifs
    · exact htext _ h
    · exact h

theorem wellFormed_parse (delta : Str) :
    WellFormed parser.activeTag (parser.parse delta).2 (parser.parse delta).1.activeTag := by
  have hloop : WellFormed parser.activeTag (delta.foldl Loop.step ⟨parser, [], []⟩).segments
      (delta.foldl Loop.step ⟨parser, [], []⟩).parser.activeTag :=
    List.foldlRecOn (motive := fun loop : Loop _ =>
      WellFormed parser.activeTag loop.segments loop.parser.activeTag) _ _ (.nil _)
      fun _ h ch _ => wellFormed_step h ch
  dsimp only [parse]
  split_ifs with hrun
  · exact hloop
  · exact hloop.pushSegment (bracketed_textSegment _ _)

/-- The end of the text closes what is open. -/
theorem wellFormed_finish : WellFormed parser.activeTag parser.finish.2 none := by
  have hline : ∀ active segments, WellFormed parser.activeTag segments active →
      WellFormed parser.activeTag (match active with
        | some tag => pushSegment segments (.tagEnd tag)
        | none => segments) none := by
    intro active segments h
    cases active with
    | none => exact h
    | some tag => exact h.pushSegment (.tagEnd tag (.nil none))
  unfold finish
  split_ifs
  · exact hline _ _ (.nil _)
  · exact hline _ _ ((WellFormed.nil _).pushSegment (parser.bracketed_lineSegment _))

end TaggedLineParser

/-! ## Line by line -/

/-- The lines of a text, each with its newline. -/
def linesInclusive : Str → List Str
  | [] => []
  | c :: rest =>
    if c = '\n' then ['\n'] :: linesInclusive rest
    else match linesInclusive rest with
      | [] => [[c]]
      | line :: lines => (c :: line) :: lines

theorem linesInclusive_eq_rows (text : Str) : linesInclusive text = Rows.rows '\n' text := by
  induction text with
  | nil => rfl
  | cons c rest ih =>
    rw [linesInclusive, Rows.rows, ih]
    split_ifs with hnewline
    · rw [hnewline]
    · cases Rows.rows '\n' rest <;> rfl

theorem stripNewline_of_notMem {body : Str} (h : '\n' ∉ body) : stripNewline body = body := by
  refine if_neg fun hlast => h ?_
  exact mem_of_getLast? hlast

@[simp] theorem stripNewline_concat (body : Str) : stripNewline (body ++ ['\n']) = body := by
  simp [stripNewline]

namespace TaggedLineParser

/-- The parser at the beginning of a line. -/
def atLineStart (specs : List (TagSpec τ)) (active : Option τ) : TaggedLineParser τ :=
  ⟨specs, active, true, []⟩

/-- The line is no tag, whatever follows. -/
def Disproved (specs : List (TagSpec τ)) (body : Str) : Prop :=
  ∀ more, ∀ spec ∈ specs, trim (body ++ more) ≠ spec.opening ∧ trim (body ++ more) ≠ spec.closing

variable {specs : List (TagSpec τ)} {active : Option τ} {body : Str}

omit [DecidableEq τ] in
theorem Disproved.append (h : Disproved specs body) (more : Str) : Disproved specs (body ++ more) := by
  intro last spec hspec
  rw [List.append_assoc]
  exact h (more ++ last) spec hspec

omit [DecidableEq τ] in
/-- A line that has begun otherwise than a tag is none. -/
theorem disproved_of_not_isTagPrefix {parser : TaggedLineParser τ}
    (hstart : trimStart body ≠ []) (h : parser.isTagPrefix (trimStart body) = false) :
    Disproved parser.specs body := by
  have hprefix : ∀ more, trimEnd (trimStart body) <+: trim (body ++ more) := by
    intro more
    rw [trim, trimStart_append_of_ne_nil hstart]
    by_cases hblank : trimEnd more = []
    · simp only [trimEnd_append_of_blank hblank, prefix_rfl]
    · rw [trimEnd_append_of_ne_nil hblank]
      exact (List.rdropWhile_prefix _ _).trans (prefix_append _ _)
  intro more spec hspec
  have hnot := any_eq_false.mp h spec hspec
  simp only [Bool.or_eq_true, decide_eq_true_eq, not_or] at hnot
  constructor
  · intro heq
    exact hnot.1 (heq ▸ hprefix more)
  · intro heq
    exact hnot.2 (heq ▸ hprefix more)

/-- A line that is no tag is text. -/
theorem Disproved.lineSegment {line : Str} (hdisproved : Disproved specs (stripNewline line))
    (active : Option τ) :
    (atLineStart specs active).lineSegment line = (atLineStart specs active).textSegment line ∧
      activeAfter active ((atLineStart specs active).textSegment line) = active := by
  have h : ∀ spec ∈ specs, trim (stripNewline line) ≠ spec.opening ∧
      trim (stripNewline line) ≠ spec.closing := by simpa using hdisproved []
  have hopen : (atLineStart specs active).matchOpen (trim (stripNewline line)) = none := by
    rw [matchOpen, Option.map_eq_none_iff, find?_eq_none]
    intro spec hspec
    simpa using Ne.symm (h spec hspec).1
  have hclose : (atLineStart specs active).matchClose (trim (stripNewline line)) = none := by
    rw [matchClose, Option.map_eq_none_iff, find?_eq_none]
    intro spec hspec
    simpa using Ne.symm (h spec hspec).2
  exact ⟨by simp [TaggedLineParser.lineSegment, hopen, hclose],
    activeAfter_textSegment (atLineStart specs active) line⟩

section ReadChar

variable {parser : TaggedLineParser τ} {ch : Char}

theorem readChar_of_detect (hdetect : parser.detectTag = true) (hch : ch ≠ '\n') :
    parser.readChar ch =
      if trimStart (parser.lineBuffer ++ [ch]) = [] ∨
          parser.isTagPrefix (trimStart (parser.lineBuffer ++ [ch])) = true then
        ({ parser with lineBuffer := parser.lineBuffer ++ [ch] }, [])
      else ({ parser with lineBuffer := [], detectTag := false },
        [parser.textSegment (parser.lineBuffer ++ [ch])]) := by
  simp [readChar, hdetect, hch]

theorem readChar_of_text (hdetect : parser.detectTag = false) (ch : Char) :
    parser.readChar ch = ({ parser with detectTag := ch = '\n' }, [parser.textSegment [ch]]) := by
  simp [readChar, hdetect]

end ReadChar

/-- Inside of a line: it is kept back, or it is no tag and its text has been put out. -/
theorem read_body (specs : List (TagSpec τ)) (active : Option τ) (h : '\n' ∉ body) :
    (Run.after readChar (atLineStart specs active) body =
        { atLineStart specs active with lineBuffer := body } ∧
      atoms (Run.outputs readChar (atLineStart specs active) body) = []) ∨
    (Run.after readChar (atLineStart specs active) body =
        { atLineStart specs active with detectTag := false } ∧
      atoms (Run.outputs readChar (atLineStart specs active) body) =
        ((atLineStart specs active).textSegment body).atoms ∧
      Disproved specs body) := by
  induction body using List.reverseRecOn with
  | nil => exact .inl ⟨rfl, rfl⟩
  | append_singleton body ch ih =>
    have hch : ch ≠ '\n' := fun heq => h (by simp [heq])
    rw [Run.after_concat, Run.outputs_concat, atoms_append]
    obtain ⟨hafter, houtputs⟩ | ⟨hafter, houtputs, hdisproved⟩ :=
      ih fun hmem => h (mem_append_left _ hmem)
    · rw [hafter, houtputs, readChar_of_detect rfl hch]
      split_ifs with hkeep
      · exact .inl ⟨rfl, rfl⟩
      · rw [not_or, Bool.not_eq_true] at hkeep
        exact .inr ⟨rfl, by simp [textSegment], disproved_of_not_isTagPrefix hkeep.1 hkeep.2⟩
    · rw [hafter, houtputs, readChar_of_text rfl]
      refine .inr ⟨by simp [hch], ?_, hdisproved.append [ch]⟩
      rw [atoms_textSegment_append, atoms_singleton]
      rfl

/-- What the end of the text adds. -/
def closeActive : Option τ → List (TaggedLineSegment τ)
  | some tag => [.tagEnd tag]
  | none => []

/-- The segments of a text given by its lines. -/
def readLines (specs : List (TagSpec τ)) : Option τ → List Str → List (TaggedLineSegment τ)
  | active, [] => closeActive active
  | active, line :: lines =>
    let segment := (atLineStart specs active).lineSegment line
    segment :: readLines specs (activeAfter active segment) lines

/-- A whole line is read as what it is, and the next one begins. -/
theorem read_line (specs : List (TagSpec τ)) (active : Option τ) (h : '\n' ∉ body) :
    Run.after readChar (atLineStart specs active) (body ++ ['\n']) =
        atLineStart specs
          (activeAfter active ((atLineStart specs active).lineSegment (body ++ ['\n']))) ∧
      atoms (Run.outputs readChar (atLineStart specs active) (body ++ ['\n'])) =
        ((atLineStart specs active).lineSegment (body ++ ['\n'])).atoms := by
  rw [Run.after_concat, Run.outputs_concat, atoms_append]
  obtain ⟨hafter, houtputs⟩ | ⟨hafter, houtputs, hdisproved⟩ := read_body specs active h
  · rw [hafter, houtputs]
    exact ⟨rfl, atoms_pushSegment⟩
  · rw [← stripNewline_concat body] at hdisproved
    obtain ⟨htext, hactive⟩ := hdisproved.lineSegment active
    rw [hafter, houtputs, readChar_of_text rfl, htext, hactive, atoms_textSegment_append,
      atoms_singleton]
    exact ⟨rfl, rfl⟩

theorem atoms_finish (parser : TaggedLineParser τ) (hbuffer : parser.lineBuffer ≠ []) :
    atoms parser.finish.2 = (parser.lineSegment parser.lineBuffer).atoms ++
      atoms (closeActive (activeAfter parser.activeTag (parser.lineSegment parser.lineBuffer))) := by
  simp only [finish, if_neg hbuffer]
  cases activeAfter parser.activeTag (parser.lineSegment parser.lineBuffer) <;> simp [closeActive]

theorem atoms_finish_of_nil (parser : TaggedLineParser τ) (hbuffer : parser.lineBuffer = []) :
    atoms parser.finish.2 = atoms (closeActive parser.activeTag) := by
  simp only [finish, if_pos hbuffer]
  cases parser.activeTag <;> simp [closeActive]

/-- The last line may have no newline. -/
theorem read_last (hne : body ≠ []) (h : '\n' ∉ body) :
    atoms (Run.outputs readChar (atLineStart specs active) body) ++
        atoms (Run.after readChar (atLineStart specs active) body).finish.2 =
      ((atLineStart specs active).lineSegment body).atoms ++
        atoms (closeActive (activeAfter active ((atLineStart specs active).lineSegment body))) := by
  obtain ⟨hafter, houtputs⟩ | ⟨hafter, houtputs, hdisproved⟩ := read_body specs active h
  · rw [hafter, houtputs, atoms_finish _ hne]
    rfl
  · rw [← stripNewline_of_notMem h] at hdisproved
    obtain ⟨htext, hactive⟩ := hdisproved.lineSegment active
    rw [hafter, houtputs, htext, hactive]
    rfl

/-- A text is read as its lines are. -/
theorem atoms_readLines (specs : List (TagSpec τ)) (active : Option τ) (text : Str) :
    atoms (Run.outputs readChar (atLineStart specs active) text) ++
        atoms (Run.after readChar (atLineStart specs active) text).finish.2 =
      atoms (readLines specs active (linesInclusive text)) := by
  induction hn : text.length using Nat.strong_induction_on generalizing text active with
  | _ n ih =>
    by_cases hnewline : '\n' ∈ text
    · obtain ⟨body, rest, rfl, hbody⟩ := eq_append_cons_of_mem hnewline
      have hsplit : body ++ '\n' :: rest = body ++ ['\n'] ++ rest := by simp
      have hlt : rest.length < n := by
        rw [← hn, length_append, length_cons]
        omega
      obtain ⟨hafter, houtputs⟩ := read_line specs active hbody
      rw [linesInclusive_eq_rows, Rows.rows_eq_cons _ hbody, ← linesInclusive_eq_rows, hsplit,
        Run.after_append, Run.outputs_append, atoms_append, hafter, houtputs, List.append_assoc, ih _ hlt _ _ rfl]
      simp [readLines, atoms]
    · by_cases hnil : text = []
      · rw [hnil]
        exact atoms_finish_of_nil _ rfl
      · rw [linesInclusive_eq_rows, Rows.rows_of_notMem _ hnil hnewline, read_last hnil hnewline]
        simp [readLines, atoms]

end TaggedLineParser

end Codex.StreamParser
