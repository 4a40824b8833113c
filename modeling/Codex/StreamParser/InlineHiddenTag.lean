import Codex.Lib.Search
import Codex.Lib.Text

/-!
# Hidden inline tags

A parser that takes a text in pieces, shows what stands outside of its tags and extracts what
stands inside.  Of a piece it keeps back the end that could be the beginning of the delimiter
it is looking for.

What the whole text comes to is said by `hide`, which looks at all of it at once.  The parser
is tied to it by what is left to do: what a push puts out, followed by `hide` of what was kept
back and of the text to come, is `hide` of the text so far and of the text to come
(`residue_drain`).  That is stated for a parser with one tag; with several, a piece that ends
inside of the longer of two opening delimiters can be taken for the shorter one.
-/

namespace Codex.StreamParser

open Text Search List

variable {τ : Type*}

structure StreamTextChunk (τ : Type*) where
  visibleText : Str
  extracted : List τ
  deriving DecidableEq

namespace StreamTextChunk

protected def empty : StreamTextChunk τ := ⟨[], []⟩

def isEmpty (chunk : StreamTextChunk τ) : Bool :=
  chunk.visibleText.isEmpty && chunk.extracted.isEmpty

/-- One chunk after the other. -/
def append (first second : StreamTextChunk τ) : StreamTextChunk τ :=
  ⟨first.visibleText ++ second.visibleText, first.extracted ++ second.extracted⟩

def visible (text : Str) : StreamTextChunk τ := ⟨text, []⟩

def extract (item : τ) : StreamTextChunk τ := ⟨[], [item]⟩

theorem append_assoc (first second third : StreamTextChunk τ) :
    (first.append second).append third = first.append (second.append third) := by
  simp [append]

theorem visible_append_visible (text more : Str) (chunk : StreamTextChunk τ) :
    (visible text).append ((visible more).append chunk) = (visible (text ++ more)).append chunk := by
  simp [append, visible]

end StreamTextChunk

structure ExtractedInlineTag (τ : Type*) where
  tag : τ
  content : Str
  deriving DecidableEq

structure InlineTagSpec (τ : Type*) where
  tag : τ
  opening : Str
  closing : Str
  opening_ne : opening ≠ []
  closing_ne : closing ≠ []

structure ActiveTag (τ : Type*) where
  tag : τ
  closing : Str
  closing_ne : closing ≠ []
  content : Str

structure InlineHiddenTagParser (τ : Type*) where
  specs : List (InlineTagSpec τ)
  pending : Str
  active : Option (ActiveTag τ)

/-! ## Opening delimiters -/

/-- An earlier opening delimiter, or a longer one at the same place. -/
def isBetterOpen (candidate best : ℕ × InlineTagSpec τ) : Bool :=
  candidate.1 < best.1 ||
    (candidate.1 = best.1 && best.2.opening.length < candidate.2.opening.length)

def chooseOpen (best : Option (ℕ × InlineTagSpec τ)) (candidate : ℕ × InlineTagSpec τ) :
    Option (ℕ × InlineTagSpec τ) :=
  match best with
  | none => some candidate
  | some best => if isBetterOpen candidate best then some candidate else some best

def findNextOpen (specs : List (InlineTagSpec τ)) (pending : Str) : Option (ℕ × InlineTagSpec τ) :=
  (specs.filterMap fun spec => (find spec.opening pending).map fun pos => (pos, spec)).foldl
    chooseOpen none

def maxOpenPrefixSuffixLen (specs : List (InlineTagSpec τ)) (pending : Str) : ℕ :=
  (specs.map fun spec => longestSuffixPrefixLen pending spec.opening).foldl max 0

theorem find_of_findNextOpen {specs : List (InlineTagSpec τ)} {pending : Str} {pos : ℕ}
    {spec : InlineTagSpec τ} (h : findNextOpen specs pending = some (pos, spec)) :
    find spec.opening pending = some pos := by
  have hchosen : ∀ (candidates : List (ℕ × InlineTagSpec τ)) best,
      candidates.foldl chooseOpen best = some (pos, spec) →
        best = some (pos, spec) ∨ (pos, spec) ∈ candidates := by
    intro candidates
    induction candidates with
    | nil => exact fun best hbest => .inl hbest
    | cons candidate candidates ih =>
      intro best hfold
      rcases ih _ hfold with hbest | hmem
      · unfold chooseOpen at hbest
        split at hbest
        · cases hbest
          exact .inr (by simp)
        · split_ifs at hbest
          · cases hbest
            exact .inr (by simp)
          · exact .inl hbest
      · exact .inr (by simp [hmem])
  rcases hchosen _ none h with hnone | hmem
  · cases hnone
  · obtain ⟨spec', -, hspec⟩ := mem_filterMap.mp hmem
    obtain ⟨pos', hfind, heq⟩ := Option.map_eq_some_iff.mp hspec
    cases heq
    exact hfind

theorem findNextOpen_singleton (spec : InlineTagSpec τ) (pending : Str) :
    findNextOpen [spec] pending = (find spec.opening pending).map fun pos => (pos, spec) := by
  unfold findNextOpen
  cases hfind : find spec.opening pending with
  | none => simp [hfind]
  | some pos => simp [hfind, chooseOpen]

/-! ## The parser -/

/-- What the loop over a piece leaves behind. -/
structure Drained (τ : Type*) where
  active : Option (ActiveTag τ)
  pending : Str
  out : StreamTextChunk (ExtractedInlineTag τ)

def Drained.after (drained : Drained τ) (chunk : StreamTextChunk (ExtractedInlineTag τ)) :
    Drained τ :=
  { drained with out := chunk.append drained.out }

/-- The loop over what is pending: delimiters are passed as long as they are found. -/
def drain (specs : List (InlineTagSpec τ)) (active : Option (ActiveTag τ)) (pending : Str) :
    Drained τ :=
  match active with
  | some tag =>
    match _hclose : find tag.closing pending with
    | some closeIdx =>
      (drain specs none (pending.drop (closeIdx + tag.closing.length))).after
        (.extract ⟨tag.tag, tag.content ++ pending.take closeIdx⟩)
    | none =>
      ⟨some { tag with content := tag.content ++ passed pending tag.closing },
        kept pending tag.closing, .empty⟩
  | none =>
    match _hopen : findNextOpen specs pending with
    | some (openIdx, spec) =>
      (drain specs (some ⟨spec.tag, spec.closing, spec.closing_ne, []⟩)
        (pending.drop (openIdx + spec.opening.length))).after (.visible (pending.take openIdx))
    | none =>
      let take := pending.length - maxOpenPrefixSuffixLen specs pending
      ⟨none, pending.drop take, .visible (pending.take take)⟩
termination_by pending.length
decreasing_by
  · exact length_drop_lt_of_find tag.closing_ne _hclose
  · exact length_drop_lt_of_find spec.opening_ne (find_of_findNextOpen _hopen)

namespace InlineHiddenTagParser

protected def new (specs : List (InlineTagSpec τ)) : InlineHiddenTagParser τ := ⟨specs, [], none⟩

def pushStr (parser : InlineHiddenTagParser τ) (chunk : Str) :
    InlineHiddenTagParser τ × StreamTextChunk (ExtractedInlineTag τ) :=
  let drained := drain parser.specs parser.active (parser.pending ++ chunk)
  ({ parser with pending := drained.pending, active := drained.active }, drained.out)

/-- An open tag is closed by the end of the text. -/
def finish (parser : InlineHiddenTagParser τ) :
    InlineHiddenTagParser τ × StreamTextChunk (ExtractedInlineTag τ) :=
  match parser.active with
  | some tag =>
    ({ parser with pending := [], active := none },
      .extract ⟨tag.tag, tag.content ++ parser.pending⟩)
  | none => ({ parser with pending := [] }, .visible parser.pending)

end InlineHiddenTagParser

/-! ## The whole text at once -/

section Hide

variable (spec : InlineTagSpec τ)

/-- What a text comes to, the tag being open with some content or not: a tag ends at the first
closing delimiter, or with the text. -/
def hide (content : Option Str) (text : Str) : StreamTextChunk (ExtractedInlineTag τ) :=
  match content with
  | some content =>
    match _hclose : find spec.closing text with
    | some closeIdx =>
      (StreamTextChunk.extract ⟨spec.tag, content ++ text.take closeIdx⟩).append
        (hide none (text.drop (closeIdx + spec.closing.length)))
    | none => .extract ⟨spec.tag, content ++ text⟩
  | none =>
    match _hopen : find spec.opening text with
    | some openIdx =>
      (StreamTextChunk.visible (text.take openIdx)).append
        (hide (some []) (text.drop (openIdx + spec.opening.length)))
    | none => .visible text
termination_by text.length
decreasing_by
  · exact length_drop_lt_of_find spec.closing_ne _hclose
  · exact length_drop_lt_of_find spec.opening_ne _hopen

variable {spec} {content text more : Str} {i : ℕ}

theorem hide_closed (h : find spec.closing text = some i) :
    hide spec (some content) text =
      (StreamTextChunk.extract ⟨spec.tag, content ++ text.take i⟩).append
        (hide spec none (text.drop (i + spec.closing.length))) := by
  conv_lhs => rw [hide]
  split
  · cases ‹find spec.closing text = some _›.symm.trans h
    rfl
  · simp_all

theorem hide_unclosed (h : find spec.closing text = none) :
    hide spec (some content) text = .extract ⟨spec.tag, content ++ text⟩ := by
  conv_lhs => rw [hide]
  split
  · simp_all
  · rfl

theorem hide_opened (h : find spec.opening text = some i) :
    hide spec none text =
      (StreamTextChunk.visible (text.take i)).append
        (hide spec (some []) (text.drop (i + spec.opening.length))) := by
  conv_lhs => rw [hide]
  split
  · cases ‹find spec.opening text = some _›.symm.trans h
    rfl
  · simp_all

theorem hide_unopened (h : find spec.opening text = none) : hide spec none text = .visible text := by
  conv_lhs => rw [hide]
  split
  · simp_all
  · rfl

/-- An open tag is one of the parser's. -/
def Follows (spec : InlineTagSpec τ) (active : Option (ActiveTag τ)) : Prop :=
  ∀ tag ∈ active, tag.tag = spec.tag ∧ tag.closing = spec.closing

/-- The delimiter that is looked for. -/
def delimiter (spec : InlineTagSpec τ) (active : Option (ActiveTag τ)) : Str :=
  if active.isSome then spec.closing else spec.opening

/-- A beginning without the closing delimiter goes to the content. -/
theorem hide_content_append {front back : Str}
    (h : find spec.closing (front ++ back) = (find spec.closing back).map (· + front.length)) :
    hide spec (some content) (front ++ back) = hide spec (some (content ++ front)) back := by
  cases hback : find spec.closing back with
  | none =>
    rw [hback] at h
    rw [hide_unclosed h, hide_unclosed hback, List.append_assoc]
  | some i =>
    rw [hback] at h
    rw [hide_closed h, hide_closed hback, List.append_assoc]
    have htake : (front ++ back).take (i + front.length) = front ++ back.take i := by
      rw [Nat.add_comm, take_length_add_append]
    have hdrop : (front ++ back).drop (i + front.length + spec.closing.length) =
        back.drop (i + spec.closing.length) := by
      rw [Nat.add_right_comm, Nat.add_comm, drop_length_add_append]
    rw [htake, hdrop]

/-- A beginning without the opening delimiter is visible. -/
theorem hide_visible_append {front back : Str}
    (h : find spec.opening (front ++ back) = (find spec.opening back).map (· + front.length)) :
    hide spec none (front ++ back) =
      (StreamTextChunk.visible front).append (hide spec none back) := by
  cases hback : find spec.opening back with
  | none =>
    rw [hback] at h
    rw [hide_unopened h, hide_unopened hback]
    simp [StreamTextChunk.append, StreamTextChunk.visible]
  | some i =>
    rw [hback] at h
    rw [hide_opened h, hide_opened hback, StreamTextChunk.visible_append_visible]
    have htake : (front ++ back).take (i + front.length) = front ++ back.take i := by
      rw [Nat.add_comm, take_length_add_append]
    have hdrop : (front ++ back).drop (i + front.length + spec.opening.length) =
        back.drop (i + spec.opening.length) := by
      rw [Nat.add_right_comm, Nat.add_comm, drop_length_add_append]
    rw [htake, hdrop]

/-- The loop keeps back less than a delimiter, and leaves what was to be done: what it puts out,
then the rest. -/
structure Residue (spec : InlineTagSpec τ) (active : Option (ActiveTag τ)) (pending : Str)
    (drained : Drained τ) : Prop where
  follows : Follows spec drained.active
  length_lt : drained.pending.length < (delimiter spec drained.active).length
  hide_eq : ∀ more, hide spec (active.map ActiveTag.content) (pending ++ more) =
    drained.out.append (hide spec (drained.active.map ActiveTag.content) (drained.pending ++ more))

theorem Residue.after {active active' : Option (ActiveTag τ)} {pending pending' : Str}
    {drained : Drained τ} {chunk : StreamTextChunk (ExtractedInlineTag τ)}
    (h : Residue spec active' pending' drained)
    (heq : ∀ more, hide spec (active.map ActiveTag.content) (pending ++ more) =
      chunk.append (hide spec (active'.map ActiveTag.content) (pending' ++ more))) :
    Residue spec active pending (drained.after chunk) := by
  refine ⟨h.follows, h.length_lt, fun more => ?_⟩
  rw [heq, h.hide_eq, Drained.after, StreamTextChunk.append_assoc]

theorem residue_drain (spec : InlineTagSpec τ) (active : Option (ActiveTag τ)) (pending : Str)
    (hactive : Follows spec active) :
    Residue spec active pending (drain [spec] active pending) := by
  fun_induction drain [spec] active pending with
  | case1 pending tag closeIdx hclose ih =>
    obtain ⟨htag, hclosing⟩ := hactive tag rfl
    refine (ih (by simp [Follows])).after fun more => ?_
    rw [hclosing] at hclose ⊢
    have hle := add_length_le_of_find spec.closing_ne hclose
    rw [Option.map_some, Option.map_none,
      hide_closed (find_append_of_some spec.closing_ne hclose more), htag,
      take_append_of_le_length (by omega), drop_append_of_le_length hle]
  | case2 pending tag hclose =>
    obtain ⟨htag, hclosing⟩ := hactive tag rfl
    obtain ⟨tag, closing, closing_ne, content⟩ := tag
    subst hclosing
    refine ⟨fun other hother => ?_, length_kept_lt pending spec.closing_ne, fun more => ?_⟩
    · cases hother
      exact ⟨htag, rfl⟩
    · have hsearch := find_append_of_none spec.closing_ne hclose more
      change hide spec (some content) (pending ++ more) =
        hide spec (some (content ++ passed pending spec.closing))
          (kept pending spec.closing ++ more)
      rw [← hide_content_append hsearch, ← List.append_assoc, passed_append_kept]
  | case3 pending openIdx found hopen ih =>
    rw [findNextOpen_singleton] at hopen
    obtain ⟨i, hfind, heq⟩ := Option.map_eq_some_iff.mp hopen
    cases heq
    refine (ih ?_).after fun more => ?_
    · intro tag htag
      cases htag
      exact ⟨rfl, rfl⟩
    · have hle := add_length_le_of_find spec.opening_ne hfind
      rw [Option.map_none, hide_opened (find_append_of_some spec.opening_ne hfind more),
        take_append_of_le_length (by omega), drop_append_of_le_length hle]
      rfl
  | case4 pending hopen take =>
    rw [findNextOpen_singleton, Option.map_eq_none_iff] at hopen
    have htake : take = pending.length - longestSuffixPrefixLen pending spec.opening := by
      simp [take, maxOpenPrefixSuffixLen]
    refine ⟨by simp [Follows], length_kept_lt pending spec.opening_ne, fun more => ?_⟩
    have hsearch := find_append_of_none spec.opening_ne hopen more
    change hide spec none (pending ++ more) =
      (StreamTextChunk.visible (passed pending spec.opening)).append
        (hide spec none (kept pending spec.opening ++ more))
    rw [← hide_visible_append hsearch, ← List.append_assoc, passed_append_kept]

end Hide

/-! ## What is hidden -/

/-- In the text followed by the needle, the needle stands only at the end. -/
def EndsFirst (needle before : Str) : Prop :=
  ∀ i < before.length, ¬ OccursAt needle (before ++ needle) i

/-- The text is made of visible text and of tags with their bodies, each tag from its first
opening to its first closing delimiter, or to the end of the text. -/
inductive Hidden (opening closing : Str) : Str → Str → List Str → Prop where
  | plain {text : Str} (h : ∀ i, ¬ OccursAt opening text i) : Hidden opening closing text text []
  | unclosed {before body : Str} (hopen : EndsFirst opening before)
      (hclose : ∀ i, ¬ OccursAt closing body i) :
      Hidden opening closing (before ++ opening ++ body) before [body]
  | closed {before body rest visible : Str} {bodies : List Str} (hopen : EndsFirst opening before)
      (hclose : EndsFirst closing body) (hrest : Hidden opening closing rest visible bodies) :
      Hidden opening closing (before ++ opening ++ body ++ closing ++ rest) (before ++ visible)
        (body :: bodies)

/-- A text with an occurrence, taken apart at the first one. -/
theorem exists_split_of_find {needle text : Str} (hne : needle ≠ []) {i : ℕ}
    (h : find needle text = some i) :
    text = text.take i ++ needle ++ text.drop (i + needle.length) ∧
      EndsFirst needle (text.take i) := by
  have hle := add_length_le_of_find hne h
  obtain ⟨⟨rest, hrest⟩, hfirst⟩ := (find_eq_some_iff hne).mp h
  have hsplit : text = text.take i ++ needle ++ text.drop (i + needle.length) := by
    rw [List.append_assoc]
    conv_lhs => rw [← take_append_drop i text]
    rw [← drop_drop, ← hrest, drop_left]
  refine ⟨hsplit, fun j hj hoccurs => ?_⟩
  have hlength : (text.take i).length = i := length_take_of_le (by omega)
  apply hfirst j (by omega)
  rw [hsplit]
  exact hoccurs.append hne _

theorem hidden_hide (spec : InlineTagSpec τ) (text : Str) :
    Hidden spec.opening spec.closing text (hide spec none text).visibleText
      ((hide spec none text).extracted.map ExtractedInlineTag.content) := by
  induction hn : text.length using Nat.strong_induction_on generalizing text with
  | _ n ih =>
    cases hopen : find spec.opening text with
    | none =>
      rw [hide_unopened hopen]
      exact .plain ((find_eq_none_iff spec.opening_ne).mp hopen)
    | some i =>
      obtain ⟨hsplit, hfirst⟩ := exists_split_of_find spec.opening_ne hopen
      have hlt := length_drop_lt_of_find spec.opening_ne hopen
      rw [hide_opened hopen]
      generalize text.drop (i + spec.opening.length) = body at hsplit hlt ⊢
      generalize text.take i = before at hsplit hfirst ⊢
      cases hclose : find spec.closing body with
      | none =>
        rw [hide_unclosed hclose, hsplit]
        have hnone := (find_eq_none_iff spec.closing_ne).mp hclose
        simpa [StreamTextChunk.append, StreamTextChunk.visible, StreamTextChunk.extract]
          using Hidden.unclosed hfirst hnone
      | some j =>
        obtain ⟨hbody, hends⟩ := exists_split_of_find spec.closing_ne hclose
        have hshort := length_drop_lt_of_find spec.closing_ne hclose
        have hrest := ih _ (by omega) (body.drop (j + spec.closing.length)) rfl
        rw [hide_closed hclose, hsplit]
        have hclosed := Hidden.closed hfirst hends hrest
        conv => arg 3; rw [hbody]
        simpa [StreamTextChunk.append, StreamTextChunk.visible, StreamTextChunk.extract]
          using hclosed

end Codex.StreamParser
