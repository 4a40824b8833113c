import Codex.ApplyPatch.Patch

/-!
# The patch parser

`StreamingPatchParser` reads a patch in pieces as they arrive.  It collects
characters until a line is complete and then processes the line, with a mode that
says in which section of the patch it is; which lines are recognised as markers,
and with which whitespace ignored, depends on the mode.  `parse_patch` checks the
first and the last line of a whole text and then runs the same parser over it.

`processLine` is the code's transition function.  Everything proved about the
parser goes through `processLine_eq_ok_iff`, which says once what a line can do:
the relation `Step` has one constructor for each way a line is accepted.
-/

namespace Codex.ApplyPatch

open Text

inductive ParseError where
  | invalidPatchError (message : Str)
  | invalidHunkError (message : Str) (lineNumber : ℕ)
  deriving DecidableEq, Repr

def beginPatchMarker : Str := "*** Begin Patch".toList
def endPatchMarker : Str := "*** End Patch".toList
def addFileMarker : Str := "*** Add File: ".toList
def deleteFileMarker : Str := "*** Delete File: ".toList
def updateFileMarker : Str := "*** Update File: ".toList
def moveToMarker : Str := "*** Move to: ".toList
def eofMarker : Str := "*** End of File".toList
def changeContextMarker : Str := "@@ ".toList
def emptyChangeContextMarker : Str := "@@".toList
def environmentIdMarker : Str := "*** Environment ID:".toList

inductive StreamingParserMode where
  | notStarted
  | startedPatch
  | addFile
  | deleteFile
  | updateFile (hunkLineNumber : ℕ)
  | endedPatch
  deriving DecidableEq, Repr

structure StreamingPatchParser where
  lineBuffer : Str
  mode : StreamingParserMode
  hunks : List Hunk
  environmentId : Option Str
  lineNumber : ℕ
  deriving DecidableEq, Repr

def UpdateFileChunk.empty : UpdateFileChunk := ⟨none, [], [], [], false⟩

/-- Neither side of the chunk has a line. -/
def UpdateFileChunk.hasNoLines (chunk : UpdateFileChunk) : Bool :=
  chunk.oldLines.isEmpty && chunk.newLines.isEmpty

def lastChunkHasNoLines (chunks : List UpdateFileChunk) : Bool :=
  chunks.getLast?.any UpdateFileChunk.hasNoLines

/-- Changes the last chunk, after pushing an empty one if there is none. -/
def modifyLastChunk (chunks : List UpdateFileChunk) (f : UpdateFileChunk → UpdateFileChunk) :
    List UpdateFileChunk :=
  match chunks.getLast? with
  | some chunk => chunks.dropLast ++ [f chunk]
  | none => [f .empty]

/-- `@@`, alone or with a context line. -/
def isChangeContext (updateLine : Str) : Bool :=
  updateLine = emptyChangeContextMarker || (stripPrefix changeContextMarker updateLine).isSome

def invalidHeader (trimmed : Str) : Str :=
  "'".toList ++ trimmed ++ ("' is not a valid hunk header. Valid hunk headers: ".toList ++
    ("'*** Add File: \x7bpath\x7d', '*** Delete File: \x7bpath\x7d', ".toList ++
      "'*** Update File: \x7bpath\x7d'".toList))

def unexpectedLine (line : Str) : Str :=
  "Unexpected line found in update hunk: '".toList ++ line ++
    ("'. Every line should start with ' ' (context line), '+' (added line), ".toList ++
      "or '-' (removed line)".toList)

def expectedContextMarker (line : Str) : Str :=
  "Expected update hunk to start with a @@ context marker, got: '".toList ++ line ++ "'".toList

def missingBegin : ParseError :=
  .invalidPatchError "The first line of the patch must be '*** Begin Patch'".toList

def missingEnd : ParseError :=
  .invalidPatchError "The last line of the patch must be '*** End Patch'".toList

namespace StreamingPatchParser

def new : StreamingPatchParser := ⟨[], .notStarted, [], none, 0⟩

variable (parser : StreamingPatchParser)

/-- An update without chunks, or whose last chunk has no lines, must not end. -/
def ensureUpdateHunkIsNotEmpty (line : Str) : Except ParseError Unit :=
  match parser.hunks.getLast? with
  | some (.updateFile path _ chunks) =>
    match chunks, parser.mode with
    | [], .updateFile hunkLineNumber =>
      .error (.invalidHunkError
        ("Update file hunk for path '".toList ++ path ++ "' is empty".toList) hunkLineNumber)
    | chunks, _ =>
      if lastChunkHasNoLines chunks then
        if line = endPatchMarker then
          .error (.invalidHunkError "Update hunk does not contain any lines".toList
            parser.lineNumber)
        else .error (.invalidHunkError (unexpectedLine line) parser.lineNumber)
      else .ok ()
  | _ => .ok ()

/-- A hunk header, after the section before it was checked. -/
def startHunk (trimmed : Str) (hunk : Hunk) (mode : StreamingParserMode) :
    Except ParseError StreamingPatchParser := do
  parser.ensureUpdateHunkIsNotEmpty trimmed
  return { parser with hunks := parser.hunks ++ [hunk], mode }

/-- `handle_hunk_headers_and_end_patch`; `none` when the line is neither. -/
def handleHunkHeadersAndEndPatch (trimmed : Str) :
    Except ParseError (Option StreamingPatchParser) :=
  match parser.mode, stripPrefix environmentIdMarker trimmed with
  | .startedPatch, some environmentId =>
    if parser.environmentId.isSome then
      .error (.invalidPatchError
        "apply_patch environment_id cannot be specified more than once".toList)
    else if trim environmentId = [] then
      .error (.invalidPatchError "apply_patch environment_id cannot be empty".toList)
    else .ok (some { parser with environmentId := some (trim environmentId) })
  | _, _ =>
    if trimmed = endPatchMarker then do
      parser.ensureUpdateHunkIsNotEmpty trimmed
      return some { parser with mode := .endedPatch }
    else
      match stripPrefix addFileMarker trimmed, stripPrefix deleteFileMarker trimmed,
        stripPrefix updateFileMarker trimmed with
      | some path, _, _ => some <$> parser.startHunk trimmed (.addFile path []) .addFile
      | none, some path, _ => some <$> parser.startHunk trimmed (.deleteFile path) .deleteFile
      | none, none, some path =>
        some <$> parser.startHunk trimmed (.updateFile path none []) (.updateFile parser.lineNumber)
      | none, none, none => .ok none

def setLastHunk (hunk : Hunk) : StreamingPatchParser :=
  { parser with hunks := parser.hunks.dropLast ++ [hunk] }

/-- A line of an update section that is no header: a move, a chunk header, the end of
the file or a line of a chunk. -/
def processUpdateLine (line path : Str) (movePath : Option Str) (chunks : List UpdateFileChunk) :
    Except ParseError StreamingPatchParser :=
  let updateLine := trimEnd line
  let afterEof := chunks.getLast?.any UpdateFileChunk.isEndOfFile
  let setChunks := fun chunks => parser.setLastHunk (.updateFile path movePath chunks)
  if afterEof && updateLine.isEmpty then .ok parser
  else if afterEof && !isChangeContext updateLine then
    .error (.invalidHunkError (expectedContextMarker line) parser.lineNumber)
  else
    match (if chunks.isEmpty && movePath.isNone then stripPrefix moveToMarker updateLine
      else none) with
    | some moveToPath => .ok (parser.setLastHunk (.updateFile path (some moveToPath) chunks))
    | none =>
      if isChangeContext updateLine && lastChunkHasNoLines chunks then
        .error (.invalidHunkError (unexpectedLine line) parser.lineNumber)
      else if updateLine = emptyChangeContextMarker then .ok (setChunks (chunks ++ [.empty]))
      else
        match stripPrefix changeContextMarker updateLine with
        | some changeContext =>
          .ok (setChunks
            (chunks ++ [{ UpdateFileChunk.empty with changeContext := some changeContext }]))
        | none =>
          if updateLine = eofMarker then
            if lastChunkHasNoLines chunks then
              .error (.invalidHunkError "Update hunk does not contain any lines".toList
                parser.lineNumber)
            else if chunks.isEmpty then .ok parser
            else .ok (setChunks
              (modifyLastChunk chunks fun chunk => { chunk with isEndOfFile := true }))
          else
            match line with
            | [] => .ok (setChunks (modifyLastChunk chunks fun chunk =>
              chunk.pushContextLine []))
            | ' ' :: text => .ok (setChunks (modifyLastChunk chunks fun chunk =>
              chunk.pushContextLine text))
            | '+' :: text => .ok (setChunks (modifyLastChunk chunks fun chunk =>
              { chunk with newLines := chunk.newLines ++ [text] }))
            | '-' :: text => .ok (setChunks (modifyLastChunk chunks fun chunk =>
              { chunk with oldLines := chunk.oldLines ++ [text] }))
            | _ =>
              if chunks.getLast?.any fun chunk => !chunk.hasNoLines then
                .error (.invalidHunkError (expectedContextMarker line) parser.lineNumber)
              else .error (.invalidHunkError (unexpectedLine line) parser.lineNumber)

/-- One line, without its line break, by the mode the parser is in. -/
def processLine (line : Str) : Except ParseError StreamingPatchParser :=
  let invalid := .error (.invalidHunkError (invalidHeader (trim line)) parser.lineNumber)
  match parser.mode with
  | .notStarted =>
    if trim line = beginPatchMarker then .ok { parser with mode := .startedPatch }
    else .error missingBegin
  | .startedPatch => do
      match ← parser.handleHunkHeadersAndEndPatch (trim line) with
      | some parser => return parser
      | none => invalid
  | .addFile => do
      match ← parser.handleHunkHeadersAndEndPatch (trim line) with
      | some parser => return parser
      | none =>
        match line, parser.hunks.getLast? with
        | '+' :: lineToAdd, some (.addFile path contents) =>
          return parser.setLastHunk (.addFile path (contents ++ lineToAdd ++ ['\n']))
        | _, _ => invalid
  | .deleteFile => do
      match ← parser.handleHunkHeadersAndEndPatch (trim line) with
      | some parser => return parser
      | none => invalid
  | .updateFile _ => do
      match ← parser.handleHunkHeadersAndEndPatch (trimEnd line) with
      | some parser => return parser
      | none =>
        match parser.hunks.getLast? with
        | some (.updateFile path movePath chunks) =>
          parser.processUpdateLine line path movePath chunks
        | _ => .error (.invalidHunkError (unexpectedLine line) parser.lineNumber)
  | .endedPatch => if trim line = [] then .ok parser else .error missingEnd

def pushChar (c : Char) : Except ParseError StreamingPatchParser :=
  if c = '\n' then
    processLine { parser with lineBuffer := [], lineNumber := parser.lineNumber + 1 }
      (stripCr parser.lineBuffer)
  else .ok { parser with lineBuffer := parser.lineBuffer ++ [c] }

/-- `push_delta`; the hunks it returns are those of the parser. -/
def pushDelta (delta : Str) : Except ParseError StreamingPatchParser :=
  delta.foldlM pushChar parser

/-- What is left in the buffer at the end is a line without its terminator. -/
def finishLastLine : Except ParseError StreamingPatchParser :=
  let line := parser.lineBuffer
  if line.isEmpty then .ok parser
  else
    let parser := { parser with lineBuffer := [], lineNumber := parser.lineNumber + 1 }
    if trim line = endPatchMarker then do
      parser.ensureUpdateHunkIsNotEmpty (trim line)
      return { parser with mode := .endedPatch }
    else parser.processLine line

def finish : Except ParseError StreamingPatchParser := do
  let parser ← parser.finishLastLine
  if parser.mode = .endedPatch then return parser else throw missingEnd

/-- The whole stream: the deltas one after the other, then the end. -/
def stream (deltas : List Str) : Except ParseError StreamingPatchParser := do
  let parser ← deltas.foldlM pushDelta new
  parser.finish

end StreamingPatchParser

/-! ## Whole texts -/

inductive ParseMode where
  | strict
  | lenient
  deriving DecidableEq, Repr

def checkStartAndEndLinesStrict (firstLine lastLine : Option Str) : Except ParseError Unit :=
  match firstLine.map trim, lastLine.map trim with
  | some first, some last =>
    if first = beginPatchMarker ∧ last = endPatchMarker then .ok ()
    else if first ≠ beginPatchMarker then .error missingBegin
    else .error missingEnd
  | some first, none =>
    if first ≠ beginPatchMarker then .error missingBegin else .error missingEnd
  | none, _ => .error missingEnd

def checkPatchBoundariesStrict (lines : List Str) : Except ParseError (List Str) := do
  checkStartAndEndLinesStrict lines.head? lines.getLast?
  return lines

/-- A heredoc around the patch is taken off. -/
def checkPatchBoundariesLenient (originalLines : List Str) : Except ParseError (List Str) :=
  match checkPatchBoundariesStrict originalLines with
  | .ok lines => .ok lines
  | .error originalParseError =>
    match originalLines.head?, originalLines.getLast? with
    | some first, some last =>
      if (first = "<<EOF".toList ∨ first = "<<'EOF'".toList ∨ first = "<<\"EOF\"".toList) ∧
          "EOF".toList.isSuffixOf last ∧ 4 ≤ originalLines.length then
        checkPatchBoundariesStrict originalLines.tail.dropLast
      else .error originalParseError
    | _, _ => .error originalParseError

def parsePatchText (patch : Str) (mode : ParseMode) : Except ParseError ApplyPatchArgs := do
  let patchLines ←
    match mode with
    | .strict => checkPatchBoundariesStrict (lines (trim patch))
    | .lenient => checkPatchBoundariesLenient (lines (trim patch))
  let patch := Text.join ['\n'] patchLines
  let parser ← StreamingPatchParser.new.pushDelta patch
  let parser ← parser.finish
  return ⟨patch, parser.hunks, none, parser.environmentId⟩

/-- `PARSE_IN_STRICT_MODE` is off. -/
def parsePatch (patch : Str) : Except ParseError ApplyPatchArgs := parsePatchText patch .lenient

end Codex.ApplyPatch
