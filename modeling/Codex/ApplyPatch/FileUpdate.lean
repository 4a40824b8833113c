import Codex.ApplyPatch.Patch
import Mathlib.Data.List.Sort

/-!
# The new contents of an updated file

`derive_new_contents_from_chunks` finds the lines of every chunk in the old file
(`seekSequence`), turns the chunks into replacements of line ranges
(`computeReplacements`) and rebuilds the file from them (`applyReplacements`).

The source indexes and subtracts machine integers, and would panic on a range
that is out of order.  Such a panic is the error `panicked` here, so that the
functions below never return a value the code does not.
-/

namespace Codex.ApplyPatch

open Text

inductive ComputeError where
  /-- The text of a `ComputeReplacements` error. -/
  | computeReplacements (message : Str)
  | panicked
  deriving DecidableEq, Repr

/-! ## Finding lines -/

/-- Common typographic punctuation as plain ASCII. -/
def normaliseChar (c : Char) : Char :=
  let n := c.toNat
  if (0x2010 ≤ n ∧ n ≤ 0x2015) ∨ n = 0x2212 then '-'
  else if 0x2018 ≤ n ∧ n ≤ 0x201B then '\''
  else if 0x201C ≤ n ∧ n ≤ 0x201F then '"'
  else if n = 0xA0 ∨ (0x2002 ≤ n ∧ n ≤ 0x200A) ∨ n = 0x202F ∨ n = 0x205F ∨ n = 0x3000 then ' '
  else c

def normalise (s : Str) : Str := (trim s).map normaliseChar

/-- The first window of `lines` at or after `searchStart` whose lines agree with the
pattern once both are read through `view`. -/
def findWindow (view : Str → Str) (lines pattern : List Str) (searchStart : ℕ) : Option ℕ :=
  (List.range' searchStart (lines.length + 1 - pattern.length - searchStart)).find? fun i =>
    ((lines.drop i).take pattern.length).map view == pattern.map view

/-- Four passes, each more lenient than the one before. -/
def seekSequence (lines pattern : List Str) (start : ℕ) (eof : Bool) : Option ℕ :=
  if pattern.isEmpty then some start
  else if lines.length < pattern.length then none
  else
    let searchStart := if eof then max (lines.length - pattern.length) start else start
    findWindow id lines pattern searchStart <|> findWindow trimEnd lines pattern searchStart <|>
      findWindow trim lines pattern searchStart <|>
      findWindow normalise lines pattern searchStart

/-! ## Files as lines with their endings -/

inductive LineEnding where
  | lf
  | crLf
  | cr
  deriving DecidableEq, Repr

def LineEnding.asStr : LineEnding → Str
  | .lf => ['\n']
  | .crLf => ['\r', '\n']
  | .cr => ['\r']

structure SourceLine where
  text : Str
  ending : Option LineEnding
  deriving DecidableEq, Repr

structure SourceFile where
  lines : List SourceLine
  preferredEnding : LineEnding
  deriving DecidableEq, Repr

/-- The lines of a text whose current line began with `text`. -/
def parseLines (text : Str) : Str → List SourceLine
  | [] => if text.isEmpty then [] else [⟨text, none⟩]
  | '\r' :: '\n' :: rest => ⟨text, some .crLf⟩ :: parseLines [] rest
  | '\r' :: rest => ⟨text, some .cr⟩ :: parseLines [] rest
  | '\n' :: rest => ⟨text, some .lf⟩ :: parseLines [] rest
  | c :: rest => parseLines (text ++ [c]) rest

namespace SourceFile

/-- The first ending becomes the preferred one; a file without any uses LF. -/
def parse (contents : Str) : SourceFile where
  lines := parseLines [] contents
  preferredEnding := ((parseLines [] contents).findSome? SourceLine.ending).getD .lf

def lineTexts (file : SourceFile) : List Str := file.lines.map SourceLine.text

end SourceFile

/-- A start index, the number of lines to drop there, and the lines to put in. -/
abbrev Replacement := ℕ × ℕ × List Str

/-- The source lines from `sourceIndex` on, with the replacements made.  `none` is
the panic of a replacement that starts before the one ahead of it ended. -/
def replaceLines (preferredEnding : LineEnding) :
    ℕ → List SourceLine → List Replacement → Option (List SourceLine)
  | _, sourceLines, [] => some sourceLines
  | sourceIndex, sourceLines, (startIdx, oldLen, newSegment) :: rest =>
    if startIdx < sourceIndex then none
    else do
      let kept := sourceLines.take (startIdx - sourceIndex)
      let inserted := newSegment.map fun text => ⟨text, some preferredEnding⟩
      let sourceLines := (sourceLines.drop (startIdx - sourceIndex)).drop oldLen
      let newLines ← replaceLines preferredEnding (startIdx + oldLen) sourceLines rest
      return kept ++ inserted ++ newLines

namespace SourceFile

/-- Every line of the result gets an ending, the last one too. -/
def applyReplacements (file : SourceFile) (replacements : List Replacement) :
    Option SourceFile := do
  let newLines ← replaceLines file.preferredEnding 0 file.lines replacements
  return { file with
    lines := newLines.map fun line =>
      { line with ending := some (line.ending.getD file.preferredEnding) } }

def intoContents (file : SourceFile) : Str :=
  file.lines.flatMap fun line => line.text ++ (line.ending.map LineEnding.asStr).getD []

end SourceFile

/-! ## From chunks to replacements -/

/-- The lines `xs[i..j]`; `none` is the panic of a range out of order. -/
def slice (xs : List Str) (i j : ℕ) : Option (List Str) :=
  if i ≤ j ∧ j ≤ xs.length then some ((xs.take j).drop i) else none

/-- The replacements between the context lines of one chunk, found at `startIdx`.
Context lines stay as they are in the file. -/
def chunkReplacements (startIdx : ℕ) (pattern newSlice : List Str) :
    ℕ → ℕ → List (ℕ × ℕ) → Option (List Replacement)
  | oldStart, newStart, [] => tailReplacement oldStart newStart
  | oldStart, newStart, (oldContext, newContext) :: rest =>
    -- a trailing empty context line may have been taken off the pattern
    if pattern.length ≤ oldContext ∨ newSlice.length ≤ newContext then
      tailReplacement oldStart newStart
    else do
      let later ← chunkReplacements startIdx pattern newSlice (oldContext + 1) (newContext + 1) rest
      if oldStart ≠ oldContext ∨ newStart ≠ newContext then
        if oldContext < oldStart then none
        else
          let segment ← slice newSlice newStart newContext
          return (startIdx + oldStart, oldContext - oldStart, segment) :: later
      else return later
where
  tailReplacement (oldStart newStart : ℕ) : Option (List Replacement) :=
    if oldStart ≠ pattern.length ∨ newStart ≠ newSlice.length then
      if pattern.length < oldStart then none
      else do
        let segment ← slice newSlice newStart newSlice.length
        return [(startIdx + oldStart, pattern.length - oldStart, segment)]
    else some []

/-- Where the old lines of a chunk are found: the start, and the pattern and new
lines, both without a final empty line when only that could be found. -/
def locateChunk (originalLines : List Str) (lineIndex : ℕ) (chunk : UpdateFileChunk) :
    Option (ℕ × List Str × List Str) :=
  match seekSequence originalLines chunk.oldLines lineIndex chunk.isEndOfFile with
  | some startIdx => some (startIdx, chunk.oldLines, chunk.newLines)
  | none =>
    if chunk.oldLines.getLast? = some [] then
      let pattern := chunk.oldLines.dropLast
      let newSlice :=
        if chunk.newLines.getLast? = some [] then chunk.newLines.dropLast else chunk.newLines
      (seekSequence originalLines pattern lineIndex chunk.isEndOfFile).map fun startIdx =>
        (startIdx, pattern, newSlice)
    else none

/-- The line after the context line of a chunk, if it has one. -/
def seekContext (originalLines : List Str) (path : Str) (lineIndex : ℕ)
    (chunk : UpdateFileChunk) : Except ComputeError ℕ :=
  match chunk.changeContext with
  | none => .ok lineIndex
  | some ctxLine =>
    match seekSequence originalLines [ctxLine] lineIndex false with
    | some idx => .ok (idx + 1)
    | none =>
      .error (.computeReplacements
        ("Failed to find context '".toList ++ ctxLine ++ "' in ".toList ++ path))

/-- The replacements of one chunk and the line where the next one may begin. -/
def computeChunk (originalLines : List Str) (path : Str) (lineIndex : ℕ)
    (chunk : UpdateFileChunk) : Except ComputeError (List Replacement × ℕ) := do
  let lineIndex ← seekContext originalLines path lineIndex chunk
  if chunk.oldLines.isEmpty then
    return ([(originalLines.length, 0, chunk.newLines)], lineIndex)
  else
    match locateChunk originalLines lineIndex chunk with
    | some (startIdx, pattern, newSlice) =>
      match chunkReplacements startIdx pattern newSlice 0 0 chunk.contextLineIndices with
      | some replacements => return (replacements, startIdx + pattern.length)
      | none => throw .panicked
    | none =>
      throw (.computeReplacements
        ("Failed to find expected lines in ".toList ++ path ++ ":\n".toList ++
          Text.join ['\n'] chunk.oldLines))

def computeChunks (originalLines : List Str) (path : Str) :
    ℕ → List UpdateFileChunk → Except ComputeError (List Replacement)
  | _, [] => return []
  | lineIndex, chunk :: rest => do
      let (replacements, lineIndex) ← computeChunk originalLines path lineIndex chunk
      let later ← computeChunks originalLines path lineIndex rest
      return replacements ++ later

/-- All replacements, in the order of the lines they start at. -/
def computeReplacements (originalLines : List Str) (path : Str)
    (chunks : List UpdateFileChunk) : Except ComputeError (List Replacement) := do
  let replacements ← computeChunks originalLines path 0 chunks
  return replacements.insertionSort fun a b => a.1 ≤ b.1

/-- The part of `derive_new_contents_from_chunks` after the file has been read. -/
def newContents (path : Str) (chunks : List UpdateFileChunk) (originalContents : Str) :
    Except ComputeError Str := do
  let sourceFile := SourceFile.parse originalContents
  let replacements ← computeReplacements sourceFile.lineTexts path chunks
  match sourceFile.applyReplacements replacements with
  | some sourceFile => return sourceFile.intoContents
  | none => throw .panicked

end Codex.ApplyPatch
