import Codex.Lib.Text

/-!
# Patches

A patch is a list of hunks, each of which adds, deletes or updates one file; an
update is a list of chunks and may move the file.  Paths in a patch are the text
the patch spells, and become resolved paths only when they are joined to the
working directory.  What the development needs of resolved paths is collected in
`PathOps`.
-/

namespace Codex.ApplyPatch

/-- One block of lines to be replaced. -/
structure UpdateFileChunk where
  /-- A single line of context used to narrow down the position of the chunk. -/
  changeContext : Option Str
  oldLines : List Str
  newLines : List Str
  /-- Pairs of indices into `oldLines` and `newLines` that were parsed as context
  rather than inferred to be equal by their contents. -/
  contextLineIndices : List (ℕ × ℕ)
  isEndOfFile : Bool
  deriving DecidableEq, Repr

/-- `push_context_line`: the line on both sides, and where it stands in each. -/
def UpdateFileChunk.pushContextLine (chunk : UpdateFileChunk) (line : Str) : UpdateFileChunk :=
  { chunk with
    contextLineIndices :=
      chunk.contextLineIndices ++ [(chunk.oldLines.length, chunk.newLines.length)]
    oldLines := chunk.oldLines ++ [line]
    newLines := chunk.newLines ++ [line] }

inductive Hunk where
  | addFile (path : Str) (contents : Str)
  | deleteFile (path : Str)
  | updateFile (path : Str) (movePath : Option Str) (chunks : List UpdateFileChunk)
  deriving DecidableEq, Repr

/-- A parsed patch: its text, its hunks and where it is to be applied. -/
structure ApplyPatchArgs where
  patch : Str
  hunks : List Hunk
  workdir : Option Str
  environmentId : Option Str
  deriving DecidableEq, Repr

/-- The path a hunk affects: the destination, for an update that moves. -/
def Hunk.path : Hunk → Str
  | .addFile path _ => path
  | .deleteFile path => path
  | .updateFile _ (some path) _ => path
  | .updateFile path none _ => path

/-- The path a hunk starts from: the source, for an update that moves. -/
def Hunk.sourcePath : Hunk → Str
  | .updateFile path _ _ => path
  | hunk => hunk.path

/-- Resolved paths: how the text of a patch is joined to a directory, and how a
path is shown in a message. -/
structure PathOps (Path : Type) where
  join : Path → Str → Except Str Path
  parent : Path → Option Path
  inferredNativePathString : Path → Str

/-- Paths that are their own text, whatever directory they are joined to. -/
def textPaths : PathOps Str where
  join _ text := .ok text
  parent _ := none
  inferredNativePathString path := path

def Hunk.resolvePath {Path : Type} (paths : PathOps Path) (cwd : Path) (hunk : Hunk) :
    Except Str Path :=
  paths.join cwd hunk.sourcePath

end Codex.ApplyPatch
