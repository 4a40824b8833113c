import Codex.ApplyPatch.Replacements

/-!
# The file after an update

An update takes the lines of every matched region out of the source that are not context lines,
and puts the added lines of the chunk in: `patched` says this of the whole file.  The code does so
unless it has found a chunk only without the empty line at its end.  Then it leaves out the final
new line too if that is empty, whatever the two lines were.

`newContents_patched` is put together from the placements: the replacements of exact chunks insert
and remove what `patched` says (`replacements_of_exact`), and replacements in order do all they
say (`applyReplacements_eq`).  `context_line_removed` is a chunk that is not exact.
-/

namespace Codex.ApplyPatch

open Placement List SourceFile

/-! ## What an update is for -/

namespace Placement

/-- The context lines that were matched. -/
def contexts (p : Placement) : List (ℕ × ℕ) :=
  p.chunk.contextLineIndices.filter fun context => context.1 < p.matched

/-- The new lines without the context line that was not matched, if there is one. -/
def ownLines (p : Placement) : List Str :=
  match p.chunk.contextLineIndices.find? fun context => p.matched ≤ context.1 with
  | some context => p.chunk.newLines.eraseIdx context.2
  | none => p.chunk.newLines

/-- The added lines that go before the source line `i`: those between the matched context line
before it, or the beginning, and the next one. -/
def addedAt (p : Placement) : ℕ → List Str :=
  insertedTexts (pieces p.start p.matched p.ownLines 0 0 p.contexts)

/-- The source line is matched, and not as a context line. -/
def removes (p : Placement) (i : ℕ) : Bool :=
  p.start ≤ i && i < p.start + p.matched && !p.contexts.any fun context => p.start + context.1 == i

/-- All old lines were found; or all but an empty one at the end, and this is a context line after
which nothing but empty lines is added, or it is a removed line and the new lines do not end with an
empty one. -/
def Exact (p : Placement) : Prop :=
  p.matched = p.chunk.oldLines.length ∨
    (∃ k, (p.matched, k) ∈ p.chunk.contextLineIndices ∧
      ∀ line ∈ p.chunk.newLines.drop (k + 1), line = []) ∨
    (∀ k, (p.matched, k) ∉ p.chunk.contextLineIndices) ∧ p.chunk.newLines.getLast? ≠ some []

end Placement

/-- The source without the removed lines, with the added ones in their places. -/
def patched (file : SourceFile) (ps : List Placement) : SourceFile :=
  file.spliced (fun i => ps.flatMap fun p => p.addedAt i) fun i => ps.any fun p => p.removes i

/-! ## The pieces of a chunk -/

variable {start matched oldStart newStart i : ℕ} {lines : List Str} {contexts : List (ℕ × ℕ)}

/-- The pieces remove the matched lines between context lines. -/
theorem removesLine_pieces (h : ContextsFrom oldStart newStart contexts)
    (hold : oldStart ≤ matched) (hcontexts : ∀ context ∈ contexts, context.1 < matched) :
    removesLine (pieces start matched lines oldStart newStart contexts) i =
      (start + oldStart ≤ i && i < start + matched &&
        !contexts.any fun context => start + context.1 == i) := by
  induction contexts generalizing oldStart newStart with
  | nil =>
    have hend : start + oldStart + (matched - oldStart) = start + matched := by omega
    simp [removesLine, pieces, hend]
  | cons context rest ih =>
    have hstart := (h.start_le context mem_cons_self).1
    have hcontext := hcontexts context mem_cons_self
    have hrest := ih h.tail hcontext fun other hother =>
      hcontexts other (mem_cons_of_mem _ hother)
    obtain ⟨hlater, -⟩ := pairwise_cons.mp h.increasing
    have hbefore : i ≤ start + context.1 → ∀ other ∈ rest, start + other.1 ≠ i := by
      intro hi other hother
      have := (hlater other hother).1
      omega
    rw [removesLine] at hrest ⊢
    rw [pieces, any_cons, hrest, any_cons, Bool.eq_iff_iff]
    simp only [Bool.or_eq_true, Bool.and_eq_true, decide_eq_true_eq, Bool.not_eq_true',
      Bool.or_eq_false_iff, any_eq_false, beq_iff_eq, beq_eq_false_iff_ne]
    constructor
    · rintro (⟨hfrom, hto⟩ | ⟨⟨hfrom, hto⟩, hrest⟩)
      · exact ⟨⟨hfrom, by omega⟩, by omega, hbefore (by omega)⟩
      · exact ⟨⟨by omega, hto⟩, by omega, hrest⟩
    · rintro ⟨⟨hfrom, hto⟩, hne, hrest⟩
      by_cases hi : i < start + context.1
      · exact .inl ⟨hfrom, by omega⟩
      · exact .inr ⟨⟨by omega, hto⟩, hrest⟩

/-! ## One chunk -/

theorem filter_isChange (replacements : List Replacement) (i : ℕ) :
    insertedTexts (replacements.filter Replacement.isChange) i = insertedTexts replacements i ∧
      removesLine (replacements.filter Replacement.isChange) i = removesLine replacements i := by
  induction replacements with
  | nil => exact ⟨rfl, rfl⟩
  | cons r rest ih =>
    obtain ⟨hinserted, hremoved⟩ := ih
    by_cases hchange : r.isChange = true
    · rw [filter_cons_of_pos hchange]
      simp only [insertedTexts, removesLine] at hinserted hremoved ⊢
      rw [filter_cons, filter_cons, any_cons, any_cons, hremoved]
      split
      · simp only [flatMap_cons, hinserted, and_self]
      · simp only [hinserted, and_self]
    · obtain ⟨hzero, hnil⟩ : r.2.1 = 0 ∧ r.2.2 = [] := by
        simpa [Replacement.isChange] using hchange
      rw [filter_cons_of_neg hchange, hinserted, hremoved]
      constructor
      · by_cases hr : r.1 = i
        · simp [insertedTexts, hr, hnil]
        · simp [insertedTexts, hr]
      · have hnone : (decide (r.1 ≤ i) && decide (i < r.1 + r.2.1)) = false := by
          rw [Bool.and_eq_false_iff, decide_eq_false_iff_not, decide_eq_false_iff_not]
          omega
        rw [removesLine, removesLine, any_cons, hnone, Bool.false_or]

theorem activeContexts_append {newLength : ℕ} {rest : List (ℕ × ℕ)}
    (h : ∀ context ∈ contexts, context.1 < matched ∧ context.2 < newLength)
    (hrest : ∀ context ∈ rest, ¬(context.1 < matched ∧ context.2 < newLength)) :
    activeContexts matched newLength (contexts ++ rest) = contexts := by
  have hnone : rest.takeWhile (fun context => context.1 < matched && context.2 < newLength) = [] := by
    cases rest with
    | nil => rfl
    | cons context rest =>
      exact takeWhile_cons_of_neg (by simpa using hrest context mem_cons_self)
  rw [activeContexts, takeWhile_append_of_pos fun context hcontext => by
    simpa using h context hcontext, hnone, append_nil]

/-- The context lines at which the code splits the replacements of the chunk. -/
def Placement.active (p : Placement) : List (ℕ × ℕ) :=
  activeContexts p.matched p.newSlice.length p.chunk.contextLineIndices

variable {p : Placement} {length cursor : ℕ} (htracked : p.chunk.Tracked)
  (hplaced : Placed length cursor p)
include htracked hplaced

/-- At most one context line was not matched, the last one. -/
theorem contexts_cases :
    (∀ k, (p.matched, k) ∉ p.chunk.contextLineIndices) ∧ p.contexts = p.chunk.contextLineIndices ∨
      ∃ k, p.chunk.contextLineIndices = p.contexts ++ [(p.matched, k)] ∧
        (∀ context ∈ p.contexts, context.2 < k) ∧ p.chunk.newLines[k]? = some [] := by
  have hold : ∀ context ∈ p.chunk.contextLineIndices, context.1 ≤ p.matched := by
    intro context hcontext
    have hlt := (htracked.lt_length hcontext).1
    have hmatched := hplaced.matched_eq
    omega
  by_cases hlast : ∃ k, (p.matched, k) ∈ p.chunk.contextLineIndices
  · obtain ⟨k, hk⟩ := hlast
    obtain ⟨before, after, hsplit⟩ := append_of_mem hk
    have hpairwise := htracked.increasing
    rw [hsplit, pairwise_append, pairwise_cons] at hpairwise
    obtain ⟨-, ⟨hafter, -⟩, hbefore⟩ := hpairwise
    obtain rfl : after = [] := by
      refine eq_nil_iff_forall_not_mem.mpr fun context hcontext => ?_
      have hle := hold context (by simp [hsplit, hcontext])
      exact absurd (hafter context hcontext).1 (by simpa using hle)
    have hcontexts : p.contexts = before := by
      have hkeep : ∀ context ∈ before, decide (context.1 < p.matched) = true := fun context h =>
        decide_eq_true (hbefore context h _ mem_cons_self).1
      rw [contexts, hsplit, filter_append, filter_eq_self.mpr hkeep]
      simp
    obtain ⟨line, holdLine, hnewLine⟩ := htracked.equalLines _ hk
    have hempty : p.chunk.oldLines[p.matched]? = some [] := by
      have hlt := (htracked.lt_length hk).1
      rcases hplaced.matched_eq with heq | ⟨hsucc, hlast⟩
      · exact absurd heq hlt.ne
      · rw [← hlast, getLast?_eq_getElem?, ← hsucc, Nat.add_sub_cancel]
    obtain rfl := Option.some_inj.mp (holdLine.symm.trans hempty)
    exact .inr ⟨k, by rw [hcontexts, hsplit],
      fun context h => (hbefore context (hcontexts ▸ h) _ mem_cons_self).2, hnewLine⟩
  · rw [not_exists] at hlast
    refine .inl ⟨hlast, filter_eq_self.mpr fun context hcontext => ?_⟩
    have hne : context.1 ≠ p.matched := by
      intro heq
      exact hlast context.2 (heq ▸ hcontext)
    have := hold context hcontext
    simp only [decide_eq_true_eq]
    omega

omit hplaced in
theorem context_lt_length {context : ℕ × ℕ} (h : context ∈ p.contexts) :
    context.1 < p.matched ∧ context.2 < p.chunk.newLines.length := by
  obtain ⟨hmem, hmatched⟩ := mem_filter.mp h
  exact ⟨by simpa using hmatched, (htracked.lt_length hmem).2⟩

/-- The code splits at the context lines that were matched, and takes the new lines that are the
chunk's own. -/
theorem active_newSlice_of_exact (h : p.Exact) :
    p.active = p.contexts ∧ p.newSlice = p.ownLines := by
  have hnone : p.contexts.find? (fun context => p.matched ≤ context.1) = none :=
    find?_eq_none.mpr fun context hcontext => by
      simpa using (context_lt_length htracked hcontext).1
  rcases contexts_cases htracked hplaced with ⟨hfound, hcontexts⟩ | ⟨k, hall, hbefore, hline⟩
  · have hslice : p.newSlice = p.chunk.newLines := by
      rcases h with hmatched | ⟨k, hk, -⟩ | ⟨-, hlast⟩
      · exact if_pos hmatched
      · exact absurd hk (hfound k)
      · rw [newSlice, if_neg hlast, ite_self]
    rw [active, ownLines, hslice, ← hcontexts, hnone]
    refine ⟨?_, rfl⟩
    have hactive : activeContexts p.matched p.chunk.newLines.length (p.contexts ++ []) =
        p.contexts := activeContexts_append (fun _ => context_lt_length htracked) (by simp)
    rwa [append_nil] at hactive
  · have hmem : (p.matched, k) ∈ p.chunk.contextLineIndices := by simp [hall]
    have hmatched := (htracked.lt_length hmem).1.ne
    obtain ⟨hlt, hempty⟩ := List.getElem?_eq_some_iff.mp hline
    have hblank : ∀ line ∈ p.chunk.newLines.drop (k + 1), line = [] := by
      rcases h with h | ⟨k', hk', hblank⟩ | ⟨h, -⟩
      · exact absurd h hmatched
      · rw [hall, mem_append, mem_singleton] at hk'
        rcases hk' with hk' | hk'
        · exact absurd (context_lt_length htracked hk').1 (lt_irrefl _)
        · cases hk'
          exact hblank
      · exact absurd hmem (h k)
    -- the lines from the one that was left out on are all empty
    have hown : p.ownLines = p.chunk.newLines.take k ++ p.chunk.newLines.drop (k + 1) := by
      rw [ownLines, hall, find?_append, hnone]
      simp [eraseIdx_eq_take_drop_succ]
    have hlines : p.chunk.newLines =
        p.chunk.newLines.take k ++ [] :: p.chunk.newLines.drop (k + 1) := by
      rw [← hempty, ← drop_eq_getElem_cons hlt, take_append_drop]
    have hdrop : ∀ lines n, p.chunk.newLines = lines ++ List.replicate (n + 1) [] →
        p.newSlice = lines ++ List.replicate n [] := by
      intro lines n hlines
      rw [newSlice, if_neg hmatched, hlines, if_pos (by simp [getLast?_replicate])]
      simp [dropLast_append_of_ne_nil]
    have hslice : p.newSlice = p.ownLines := by
      rw [hown, eq_replicate_of_mem hblank]
      refine hdrop _ _ ?_
      rw [replicate_succ, ← eq_replicate_of_mem hblank, ← hlines]
    refine ⟨?_, hslice⟩
    rw [active, hall]
    refine activeContexts_append (fun context hcontext => ?_) (by simp)
    have := hbefore context hcontext
    rw [hslice, hown, length_append, length_take_of_le hlt.le]
    exact ⟨(context_lt_length htracked hcontext).1, by omega⟩

/-- The replacements do what the chunk says. -/
theorem replacements_of_exact (h : p.Exact) (i : ℕ) :
    insertedTexts p.replacements i = p.addedAt i ∧ removesLine p.replacements i = p.removes i := by
  obtain ⟨hactive, hslice⟩ := active_newSlice_of_exact htracked hplaced h
  have hcontexts : ContextsFrom 0 0 p.contexts := hactive ▸ htracked.contextsFrom.active _ _
  have hremoves : p.removes i =
      removesLine (pieces p.start p.matched p.ownLines 0 0 p.contexts) i :=
    (removesLine_pieces hcontexts (Nat.zero_le _) fun context hcontext =>
      (context_lt_length htracked hcontext).1).symm
  rw [addedAt, hremoves, ← hslice, ← hactive]
  by_cases hold : p.chunk.oldLines = []
  · obtain ⟨-, hmatched⟩ := hplaced.addition hold
    have hnone : p.active = [] := by
      refine eq_nil_iff_forall_not_mem.mpr fun context hcontext => ?_
      have := (context_lt_length htracked (hactive ▸ hcontext)).1
      omega
    have hwhole : p.newSlice = p.chunk.newLines := if_pos (by rw [hmatched, hold]; rfl)
    rw [replacements, if_pos hold, hnone, hwhole, hmatched]
    exact ⟨rfl, rfl⟩
  · rw [replacements, if_neg hold]
    exact filter_isChange _ i

omit htracked hplaced

/-! ## All chunks -/

/-- For chunks that the parser produced, a successful update gives the patched file if all of them
are exact. -/
theorem newContents_patched {path contents result : Str} {chunks : List UpdateFileChunk}
    (hchunks : ParserProduced chunks) (h : newContents path chunks contents = .ok result) :
    ∃ ps, placements (SourceFile.parse contents).lineTexts 0 chunks = some ps ∧
      ((∀ p ∈ ps, p.Exact) → result = (patched (SourceFile.parse contents) ps).intoContents) := by
  obtain ⟨replacements, hcompute, h⟩ := bind_eq_ok h
  obtain ⟨ps, hplace, rfl⟩ := exists_placements_of_computeReplacements hchunks.tracked hcompute
  refine ⟨ps, hplace, fun hexact => ?_⟩
  obtain ⟨hchunks', hplaced, -⟩ := placed_of_placements (Nat.zero_le _) hplace
  have hone : ∀ p ∈ ps, ∀ i, insertedTexts p.replacements i = p.addedAt i ∧
      removesLine p.replacements i = p.removes i := by
    intro p hp i
    obtain ⟨_, _, hplaced⟩ := hplaced p hp
    refine replacements_of_exact (hchunks.tracked _ ?_) hplaced (hexact p hp) i
    rw [← hchunks']
    exact mem_map_of_mem hp
  obtain ⟨hbounds, hordered⟩ := flatMap_replacements_ordered hchunks.tracked hplace
  have hends := insertionSort_endsBefore hbounds hordered
  have hbounds' : ∀ r ∈ (ps.flatMap replacements).insertionSort (fun a b => a.1 ≤ b.1),
      r.1 + r.2.1 ≤ (parse contents).lines.length := fun r hr => by
    simpa [lineTexts] using hbounds r ((mem_insertionSort _).mp hr)
  have hinserted : insertedTexts
      ((ps.flatMap replacements).insertionSort fun a b => a.1 ≤ b.1) =
        fun i => ps.flatMap fun p => p.addedAt i := by
    funext i
    rw [(insertedTexts_insertionSort i).1, insertedTexts, List.filter_flatMap, flatMap_assoc]
    exact flatMap_congr fun p hp => (hone p hp i).1
  have hremoved : removesLine
      ((ps.flatMap replacements).insertionSort fun a b => a.1 ≤ b.1) =
        fun i => ps.any fun p => p.removes i := by
    funext i
    rw [(insertedTexts_insertionSort i).2, removesLine, any_flatMap, Bool.eq_iff_iff,
      any_eq_true, any_eq_true]
    exact exists_congr fun p => and_congr_right fun hp => by rw [← (hone p hp i).2]; rfl
  rw [applyReplacements_eq hends hbounds', hinserted, hremoved] at h
  cases h
  rfl

/-- The added line comes after the blank one. -/
theorem appended_patched :
    newContents [] [appendedChunk] "a\n\n".toList = .ok "a\n\nfoo\n".toList ∧
      "a\n\nfoo\n".toList =
        (patched (SourceFile.parse "a\n\n".toList) [⟨appendedChunk, 0, 1, 1⟩]).intoContents := by
  have hok : newContents [] [appendedChunk] "a\n\n".toList = .ok "a\n\nfoo\n".toList := by
    decide +kernel
  obtain ⟨ps, hps, h⟩ := newContents_patched parserProduced_appendedChunk hok
  have hplaced : placements (parse "a\n\n".toList).lineTexts 0 [appendedChunk] =
      some [⟨appendedChunk, 0, 1, 1⟩] := by decide +kernel
  obtain rfl := Option.some_inj.mp (hps.symm.trans hplaced)
  exact ⟨hok, h (by simp [Placement.Exact, appendedChunk])⟩

/-- An empty context line and a removed one. -/
def blankChunk : UpdateFileChunk := ⟨none, [[], []], [[]], [(0, 0)], false⟩

/-- Only the context line is found, and the code removes it. -/
theorem context_line_removed :
    ParserProduced [blankChunk] ∧
      placements (SourceFile.parse "a\n\n".toList).lineTexts 0 [blankChunk] =
        some [⟨blankChunk, 0, 1, 1⟩] ∧
      (patched (SourceFile.parse "a\n\n".toList) [⟨blankChunk, 0, 1, 1⟩]).intoContents =
        "a\n\n".toList ∧
      newContents [] [blankChunk] "a\n\n".toList = .ok "a\n".toList := by
  have hparse : (parsePatchText ("*** Begin Patch\n*** Update File: f\n@@\n \n-\n".toList ++
      "*** End Patch".toList) .lenient).map ApplyPatchArgs.hunks =
      .ok [.updateFile ['f'] none [blankChunk]] := by decide +kernel
  obtain ⟨args, hargs, hhunks⟩ := map_eq_ok hparse
  exact ⟨.parsed hargs (hhunks ▸ mem_cons_self), by decide +kernel, by decide +kernel,
    by decide +kernel⟩

end Codex.ApplyPatch
