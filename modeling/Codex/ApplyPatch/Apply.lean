import Codex.Lib.Triple
import Codex.ApplyPatch.FileUpdate
import Codex.ApplyPatch.FileSystem

/-!
# Applying hunks, and the log of what was committed

`apply_hunks_to_files` carries the hunks of a patch out one after the other and
logs every committed change in a delta.  It may stop at any of its filesystem
calls, with part of a hunk done; the delta must then still say what happened, or
say that it does not know.

Every function below has one triple.  They are stated with `At changes files
promise`: the log so far, the files there are, and what may be relied on as long
as the log is exact.  A hunk is then summed up by `Logged`, which says that the
log has grown by changes that replay to what the hunk has done, and by `Effect`,
which says what a hunk that succeeds has done.

`applyHunksToFiles_exact_delta_replays` folds the triple of one hunk (`applyHunk_consistent`) over
the hunks: an exact delta replays to the files at the end of every run, also of one that failed.
The one hunk that must be left out is `applyHunksToFiles_move_onto_itself_lost`: the new text is
written to the path that is then removed.
-/

namespace Codex.ApplyPatch

open Text Triple

variable {Path World : Type} [DecidableEq Path]

inductive ApplyPatchError where
  /-- `ParseError::InvalidPatchError`. -/
  | invalidPatch (message : Str)
  | ioError (context : Str) (source : IoError)
  | compute (error : ComputeError)
  | pathUri (message : Str)
  deriving DecidableEq, Repr

/-- The errors of `apply_hunks_to_files`, an `anyhow::Error` in the source. -/
inductive ApplyError where
  | bail (message : Str)
  | context (message : Str) (source : IoError)
  | patch (error : ApplyPatchError)
  deriving DecidableEq, Repr

structure AppliedPatch where
  originalContents : Str
  newContents : Str
  deriving DecidableEq, Repr

/-- `derive_new_contents_from_chunks`, given what reading the file returned. -/
def deriveNewContentsFromChunks (path : Str) (chunks : List UpdateFileChunk)
    (read : Except IoError Str) : Except ApplyPatchError AppliedPatch :=
  match read with
  | .error source => .error (.ioError ("Failed to read file to update ".toList ++ path) source)
  | .ok originalContents =>
    match newContents path chunks originalContents with
    | .ok newContents => .ok ⟨originalContents, newContents⟩
    | .error error => .error (.compute error)

theorem deriveNewContentsFromChunks_eq_ok {path : Str} {chunks : List UpdateFileChunk}
    {read : Except IoError Str} {patch : AppliedPatch}
    (h : deriveNewContentsFromChunks path chunks read = .ok patch) :
    read = .ok patch.originalContents ∧
      newContents path chunks patch.originalContents = .ok patch.newContents := by
  unfold deriveNewContentsFromChunks at h
  cases read with
  | error source => cases h
  | ok originalContents =>
    dsimp only at h
    split at h
    · next hnew =>
        cases h
        exact ⟨rfl, hnew⟩
    · cases h

/-- What was touched, in the spelling of the patch. -/
structure AffectedPaths where
  added : List Str
  modified : List Str
  deleted : List Str
  deriving DecidableEq, Repr

structure ApplyState (Path World : Type) where
  world : World
  delta : AppliedPatchDelta Path

abbrev ApplyM (Path World : Type) := Prog ApplyError (ApplyState Path World)

/-- A call of the filesystem. -/
def call {α : Type} (op : World → Except IoError α × World) :
    ApplyM Path World (Except IoError α) :=
  Prog.step fun s => ((op s.world).1, { s with world := (op s.world).2 })

def setInexact : ApplyM Path World Unit :=
  Prog.update fun s => { s with delta := { s.delta with exact := false } }

def pushChange (applied : AppliedPatchChange Path) : ApplyM Path World Unit :=
  Prog.update fun s => { s with delta := { s.delta with changes := s.delta.changes ++ [applied] } }

/-- `try_write!`: a failed write may have changed its target before it failed. -/
def tryWrite : Except ApplyError Unit → ApplyM Path World Unit
  | .ok () => pure ()
  | .error error => do
      setInexact
      throw error

def withContext {α : Type} (message : Str) (result : Except IoError α) : Except ApplyError α :=
  result.mapError (ApplyError.context message)

section Model

variable (fs : ExecutorFileSystem Path World) (paths : PathOps Path)

variable (path : Path)

def ensureNotDirectory : ApplyM Path World (Except IoError Unit) := do
  match ← call (fs.getMetadata path) with
  | .error error => return .error error
  | .ok metadata =>
    if metadata.isDirectory then
      return .error ⟨.invalidInput, "path is a directory".toList⟩
    else return .ok ()

def removeFailureWasSideEffectFree (expectedContent : Option Str) : ApplyM Path World Bool := do
  match expectedContent with
  | some expectedContent =>
    match ← call (fs.readFileText path) with
    | .ok content => return content = expectedContent
    | .error _ => return false
  | none => return false

def noteExistingPathDeltaSupport : ApplyM Path World Unit := do
  match ← call (fs.getMetadata path) with
  | .ok metadata => if metadata.isFile && !metadata.isSymlink then pure () else setInexact
  | .error source => if source.kind = .notFound then pure () else setInexact

/-- The text that is about to be overwritten; if it cannot be read the delta is not exact. -/
def readOptionalFileTextForDelta : ApplyM Path World (Option Str) := do
  noteExistingPathDeltaSupport fs path
  match ← call (fs.readFileText path) with
  | .ok content => return some content
  | .error source =>
    if source.kind = .notFound then return none
    else
      setInexact
      return none

/-- The second write of `write_file_with_missing_parent_retry`. -/
def writeFile (contents : Str) : ApplyM Path World (Except ApplyError Unit) := do
  let result ← call (fs.writeFile path contents)
  return withContext ("Failed to write file ".toList ++ paths.inferredNativePathString path) result

/-- Writes again after creating the parent, if that was missing. -/
def writeFileWithMissingParentRetry (contents : Str) :
    ApplyM Path World (Except ApplyError Unit) := do
  match ← call (fs.writeFile path contents) with
  | .ok () => return .ok ()
  | .error err =>
    if err.kind = .notFound then
      match paths.parent path with
      | some parent =>
        match ← call (fs.createDirectory parent) with
        | .ok () => writeFile fs paths path contents
        | .error source =>
          return .error (.context ("Failed to create parent directories for ".toList ++
            paths.inferredNativePathString path) source)
      | none => writeFile fs paths path contents
    else
      return .error (.context
        ("Failed to write file ".toList ++ paths.inferredNativePathString path) err)

/-- Removing a file that is not a directory.  A failed removal leaves the delta
exact only when the file can be seen to be as it was. -/
def removeFile (expectedContent : Option Str) (failure : Str) : ApplyM Path World Unit := do
  let failure := failure ++ paths.inferredNativePathString path
  Prog.ofExcept (withContext failure (← ensureNotDirectory fs path))
  match ← call (fs.remove path) with
  | .ok () => pure ()
  | .error error =>
    let free ← removeFailureWasSideEffectFree fs path expectedContent
    if free then pure () else setInexact
    throw (.context failure error)

def applyAddFile (contents : Str) : ApplyM Path World Unit := do
  let overwrittenContent ← readOptionalFileTextForDelta fs path
  tryWrite (← writeFileWithMissingParentRetry fs paths path contents)
  pushChange ⟨path, .add contents overwrittenContent⟩

/-- A file whose text cannot be read is removed without a logged change. -/
def applyDeleteFile : ApplyM Path World Unit := do
  noteExistingPathDeltaSupport fs path
  match ← call (fs.readFileText path) with
  | .ok content =>
    removeFile fs paths path (some content) "Failed to delete file ".toList
    pushChange ⟨path, .delete content⟩
  | .error _ =>
    setInexact
    removeFile fs paths path none "Failed to delete file ".toList

/-- The destination is written and logged as an addition before the source is
removed, so that the log is right if the removal fails; the addition then
becomes the move. -/
def applyMove (path dest : Path) (patch : AppliedPatch) : ApplyM Path World Unit := do
  let overwrittenMoveContent ← readOptionalFileTextForDelta fs dest
  tryWrite (← writeFileWithMissingParentRetry fs paths dest patch.newContents)
  let destWriteChangeIndex ← Prog.step fun s => (s.delta.changes.length, s)
  pushChange ⟨dest, .add patch.newContents overwrittenMoveContent⟩
  removeFile fs paths path (some patch.originalContents) "Failed to remove original ".toList
  Prog.update fun s => { s with delta := { s.delta with
    changes := s.delta.changes.set destWriteChangeIndex ⟨path, .update (some dest)
      patch.originalContents overwrittenMoveContent patch.newContents⟩ } }

def applyUpdateFile (cwd : Path) (path : Path) (movePath : Option Str)
    (chunks : List UpdateFileChunk) : ApplyM Path World Unit := do
  noteExistingPathDeltaSupport fs path
  let read ← call (fs.readFileText path)
  let patch ← Prog.ofExcept ((deriveNewContentsFromChunks (paths.inferredNativePathString path) chunks
    read).mapError .patch)
  match movePath with
  | some dest =>
    let destUri ← Prog.ofExcept ((paths.join cwd dest).mapError (.patch ∘ .pathUri))
    applyMove fs paths path destUri patch
  | none =>
    tryWrite (← writeFile fs paths path patch.newContents)
    pushChange ⟨path, .update none patch.originalContents none patch.newContents⟩

/-- Carries one hunk out and notes its path. -/
def applyHunk (cwd : Path) (affected : AffectedPaths) (hunk : Hunk) :
    ApplyM Path World AffectedPaths := do
  let path ← Prog.ofExcept ((hunk.resolvePath paths cwd).mapError (.patch ∘ .pathUri))
  match hunk with
  | .addFile _ contents =>
    applyAddFile fs paths path contents
    return { affected with added := affected.added ++ [hunk.path] }
  | .deleteFile _ =>
    applyDeleteFile fs paths path
    return { affected with deleted := affected.deleted ++ [hunk.path] }
  | .updateFile _ movePath chunks =>
    applyUpdateFile fs paths cwd path movePath chunks
    return { affected with modified := affected.modified ++ [hunk.path] }

def applyHunksToFiles (cwd : Path) (hunks : List Hunk) : ApplyM Path World AffectedPaths := do
  if hunks.isEmpty then throw (.bail "No files were modified.".toList)
  else hunks.foldlM (applyHunk fs paths cwd) ⟨[], [], []⟩

end Model

/-! ## What each step does -/

section Steps

variable (fs : ExecutorFileSystem Path World)

/-- The log so far and the files there are.  `promise` holds as long as the log is
exact; whoever gives up on exactness may promise anything. -/
def At (changes : List (AppliedPatchChange Path)) (files : FileMap Path) (promise : Prop)
    (s : ApplyState Path World) : Prop :=
  s.delta.changes = changes ∧ fs.files s.world = files ∧ (s.delta.exact = true → promise)

variable {fs} {paths : PathOps Path} {changes : List (AppliedPatchChange Path)}
  {files : FileMap Path} {promise : Prop} {path : Path} {contents : Str}
  {s : ApplyState Path World} {E : ApplyError → ApplyState Path World → Prop}

theorem At.mono {promise' : Prop} (h : At fs changes files promise s)
    (hpromise : promise → promise') : At fs changes files promise' s :=
  ⟨h.1, h.2.1, fun hexact => hpromise (h.2.2 hexact)⟩

/-- A call that leaves the files alone. -/
theorem call_at {α : Type} {op : World → Except IoError α × World}
    (hop : ∀ w, fs.files (op w).2 = fs.files w) :
    Triple (At fs changes files promise) (call op) (fun _ => At fs changes files promise) E :=
  .step fun s hs => ⟨hs.1, (hop s.world).trans hs.2.1, hs.2.2⟩

theorem setInexact_at (promise' : Prop) :
    Triple (At fs changes files promise) setInexact (fun _ => At fs changes files promise') E :=
  .update fun _ hs => ⟨hs.1, hs.2.1, fun hexact => absurd hexact Bool.false_ne_true⟩

theorem noteExistingPathDeltaSupport_at (path : Path) :
    Triple (At fs changes files promise) (noteExistingPathDeltaSupport fs path)
      (fun _ => At fs changes files promise) E := by
  refine .bind (call_at (fs.files_getMetadata path)) fun result => ?_
  cases result with
  | error source | ok metadata =>
    dsimp only
    split_ifs
    · exact .pure fun s hs => hs
    · exact setInexact_at promise

theorem readOptionalFileTextForDelta_at (path : Path) :
    Triple (At fs changes files promise) (readOptionalFileTextForDelta fs path)
      (fun _ => At fs changes files promise) E := by
  refine .bind (noteExistingPathDeltaSupport_at path) fun _ => ?_
  refine .bind (call_at (fs.files_readFileText path)) fun result => ?_
  cases result with
  | ok content => exact .pure fun s hs => hs
  | error source =>
    dsimp only
    split_ifs
    · exact .pure fun s hs => hs
    · exact .bind (setInexact_at promise) fun _ => .pure fun s hs => hs

theorem ensureNotDirectory_at (path : Path) :
    Triple (At fs changes files promise) (ensureNotDirectory fs path)
      (fun _ => At fs changes files promise) E := by
  refine .bind (call_at (fs.files_getMetadata path)) fun result => ?_
  cases result with
  | error error => exact .pure fun s hs => hs
  | ok metadata =>
    dsimp only
    split_ifs <;> exact .pure fun s hs => hs

/-- A read that returns a text returns the one that is there. -/
theorem call_readFileText_at (path : Path) :
    Triple (At fs changes files promise) (call (fs.readFileText path))
      (fun read s => (∀ content, read = .ok content → files.lookup path = some content) ∧
        At fs changes files promise s) E := by
  refine .step fun s hs => ⟨fun content hread => ?_, ?_⟩
  · rw [← hs.2.1]
    exact fs.lookup_of_read path s.world content hread
  · exact ⟨hs.1, (fs.files_readFileText path s.world).trans hs.2.1, hs.2.2⟩

/-! ### Writing -/

/-- What a write leaves, by its outcome.  Whatever a failed write has left at the
path, writing the contents there would still have the same effect. -/
def WriteOutcome {ε : Type} (files : FileMap Path) (path : Path) (contents : Str)
    (result : Except ε Unit) (files' : FileMap Path) : Prop :=
  match result with
  | .ok () => files' = files.insert path contents
  | .error _ => files'.insert path contents = files.insert path contents

/-- A write after writes to the same path that failed. -/
theorem call_writeFile_at :
    Triple (fun s => ∃ files₀, files₀.insert path contents = files.insert path contents ∧
        At fs changes files₀ promise s)
      (call (fs.writeFile path contents))
      (fun result s => ∃ files', WriteOutcome files path contents result files' ∧
        At fs changes files' promise s) E := by
  refine of_forall fun files₀ => of_pure fun hinsert => .step fun s hs => ?_
  refine ⟨_, ?_, hs.1, rfl, hs.2.2⟩
  rw [← hs.2.1] at hinsert
  unfold WriteOutcome
  split
  · next hresult => exact (fs.files_of_write path contents s.world hresult).trans hinsert
  · refine Eq.trans (Finmap.ext_lookup fun other => ?_) hinsert
    rw [lookup_insert_ite, lookup_insert_ite]
    split_ifs with hne
    · rfl
    · exact fs.lookup_writeFile_of_ne path contents s.world other hne

theorem writeFile_at :
    Triple (fun s => ∃ files₀, files₀.insert path contents = files.insert path contents ∧
        At fs changes files₀ promise s)
      (writeFile fs paths path contents)
      (fun result s => ∃ files', WriteOutcome files path contents result files' ∧
        At fs changes files' promise s) E := by
  refine .bind call_writeFile_at fun result => .pure fun s hs => ?_
  cases result <;> exact hs

theorem writeFileWithMissingParentRetry_at :
    Triple (At fs changes files promise) (writeFileWithMissingParentRetry fs paths path contents)
      (fun result s => ∃ files', WriteOutcome files path contents result files' ∧
        At fs changes files' promise s) E := by
  refine .bind (call_writeFile_at.of_pre fun s hs => ⟨files, rfl, hs⟩) fun result => ?_
  cases result with
  | ok _ => exact .pure fun s hs => hs
  | error err =>
    dsimp only
    split_ifs
    · cases paths.parent path with
      | none => exact writeFile_at
      | some parent =>
        refine of_forall fun files₀ => of_pure fun hinsert => ?_
        refine .bind (call_at (fs.files_createDirectory parent)) fun made => ?_
        cases made with
        | ok _ => exact writeFile_at.of_pre fun s hs => ⟨files₀, hinsert, hs⟩
        | error source => exact .pure fun s hs => ⟨files₀, hinsert, hs⟩
    · exact .pure fun s hs => hs

/-! ### Logging and removing -/

theorem pushChange_at (applied : AppliedPatchChange Path) :
    Triple (At fs changes files promise) (pushChange applied)
      (fun _ => At fs (changes ++ [applied]) files promise) E :=
  .update fun _ hs => ⟨congrArg (· ++ [applied]) hs.1, hs.2⟩

/-- A file that can still be read after its removal failed has not been removed. -/
theorem removeFailureWasSideEffectFree_at (expectedContent : Option Str) :
    Triple (fun s => ∃ files', (files' = files ∨ files' = files.erase path) ∧
        At fs changes files' promise s)
      (removeFailureWasSideEffectFree fs path expectedContent)
      (fun free s => ∃ files', (free = true → files' = files) ∧ At fs changes files' promise s)
      E := by
  refine of_forall fun files' => of_pure fun hremoved => ?_
  have hnot : ∀ free, free = false → Triple (At fs changes files' promise)
      (pure free : ApplyM Path World Bool)
      (fun free s => ∃ files', (free = true → files' = files) ∧ At fs changes files' promise s)
      E := by
    rintro free rfl
    exact .pure fun s hs => ⟨files', fun hfree => absurd hfree Bool.false_ne_true, hs⟩
  cases expectedContent with
  | none => exact hnot false rfl
  | some expectedContent =>
    refine .bind (call_readFileText_at path) fun result => of_pure fun hread => ?_
    cases result with
    | error source => exact hnot false rfl
    | ok content =>
      refine .pure fun s hs => ⟨files', fun _ => ?_, hs⟩
      rcases hremoved with hsame | herased
      · exact hsame
      · have hlookup := hread content rfl
        rw [herased, Finmap.lookup_erase] at hlookup
        cases hlookup

/-- A removal that fails leaves an exact log only if it left the file. -/
theorem removeFile_at (expectedContent : Option Str) (failure : Str) :
    Triple (At fs changes files promise) (removeFile fs paths path expectedContent failure)
      (fun _ => At fs changes (files.erase path) promise)
      (fun _ s => ∃ files', At fs changes files' (promise ∧ files' = files) s) := by
  have hremove : Triple (At fs changes files promise) (call (fs.remove path))
      (fun result s => ∃ files', (match result with
          | .ok () => files' = files.erase path
          | .error _ => files' = files ∨ files' = files.erase path) ∧
        At fs changes files' promise s)
      (fun _ s => ∃ files', At fs changes files' (promise ∧ files' = files) s) := by
    refine .step fun s hs => ⟨_, ?_, hs.1, rfl, hs.2.2⟩
    rw [← hs.2.1]
    split
    · next hresult => exact fs.files_of_remove path s.world hresult
    · next hresult => exact fs.files_of_failed_remove path s.world _ hresult
  refine .bind (ensureNotDirectory_at path) fun checked => ?_
  cases checked with
  | error error => exact .throw fun s hs => ⟨files, hs.mono fun h => ⟨h, rfl⟩⟩
  | ok _ =>
    refine .bind (Q := fun _ => At fs changes files promise) (.pure fun s hs => hs) fun _ => ?_
    refine .bind hremove fun result => ?_
    cases result with
    | ok _ =>
      refine of_forall fun files' => of_pure fun hfiles => ?_
      exact .pure fun s hs => hfiles ▸ hs
    | error error =>
      refine .bind (removeFailureWasSideEffectFree_at expectedContent) fun free => ?_
      refine of_forall fun files' => of_pure fun hfree => ?_
      cases free with
      | true => exact .throw fun s hs => ⟨files', hs.mono fun h => ⟨h, hfree rfl⟩⟩
      | false =>
        refine .bind (setInexact_at (promise ∧ files' = files)) fun _ => ?_
        exact .throw fun s hs => ⟨files', hs⟩

end Steps

/-! ## What each hunk does -/

section Hunks

variable (fs : ExecutorFileSystem Path World)

/-- The log has grown and, if it is exact, what it has grown by leads from `files`
to the files there are. -/
def Logged (changes : List (AppliedPatchChange Path)) (files : FileMap Path) (promise : Prop)
    (s : ApplyState Path World) : Prop :=
  ∃ log, s.delta.changes = changes ++ log ∧
    (s.delta.exact = true → promise ∧ replay files log = fs.files s.world)

variable {fs} {paths : PathOps Path} {cwd : Path} {changes : List (AppliedPatchChange Path)}
  {files files' : FileMap Path} {promise promise' : Prop} {path : Path}
  {s : ApplyState Path World}

theorem At.logged {log : List (AppliedPatchChange Path)}
    (h : At fs (changes ++ log) files' promise' s)
    (hpromise : promise' → promise ∧ replay files log = files') :
    Logged fs changes files promise s :=
  ⟨log, h.1, fun hexact => h.2.1 ▸ hpromise (h.2.2 hexact)⟩

theorem At.logged_nil (h : At fs changes files' promise' s)
    (hpromise : promise' → promise ∧ files = files') : Logged fs changes files promise s := by
  have hnil : At fs (changes ++ []) files' promise' s := (List.append_nil changes).symm ▸ h
  exact hnil.logged hpromise

theorem tryWrite_logged {contents : Str} (result : Except ApplyError Unit) :
    Triple (fun s => ∃ files', WriteOutcome files path contents result files' ∧
        At fs changes files' promise' s)
      (tryWrite result)
      (fun _ => At fs changes (files.insert path contents) promise')
      (fun _ => Logged fs changes files promise) := by
  refine of_forall fun files' => of_pure fun houtcome => ?_
  cases result with
  | ok _ => exact .pure fun s hs => houtcome ▸ hs
  | error error =>
    refine .bind (setInexact_at False) fun _ => ?_
    exact .throw fun s hs => hs.logged_nil False.elim

theorem applyAddFile_logged (contents : Str) :
    Triple (At fs changes files promise) (applyAddFile fs paths path contents)
      (fun _ s => fs.files s.world = files.insert path contents ∧ Logged fs changes files promise s)
      (fun _ => Logged fs changes files promise) := by
  refine .bind (readOptionalFileTextForDelta_at path) fun overwrittenContent => ?_
  refine .bind writeFileWithMissingParentRetry_at fun result => ?_
  refine .bind (tryWrite_logged result) fun _ => ?_
  refine (pushChange_at _).weaken (fun s hs => hs) (fun _ s hs => ⟨hs.2.1, ?_⟩) (fun _ s hs => hs)
  exact hs.logged fun h => ⟨h, rfl⟩

theorem applyDeleteFile_logged :
    Triple (At fs changes files promise) (applyDeleteFile fs paths path)
      (fun _ s => fs.files s.world = files.erase path ∧ Logged fs changes files promise s)
      (fun _ => Logged fs changes files promise) := by
  refine .bind (noteExistingPathDeltaSupport_at path) fun _ => ?_
  refine .bind (call_at (fs.files_readFileText path)) fun read => ?_
  cases read with
  | ok content =>
    refine .bind ((removeFile_at _ _).of_error ?_) fun _ => ?_
    · rintro error s ⟨files', hs⟩
      exact hs.logged_nil fun h => ⟨h.1, h.2.symm⟩
    · refine (pushChange_at _).weaken (fun s hs => hs) (fun _ s hs => ⟨hs.2.1, ?_⟩)
        (fun _ s hs => hs)
      exact hs.logged fun h => ⟨h, rfl⟩
  | error _ =>
    -- what was there is not known, so the removal is not logged
    refine .bind (setInexact_at False) fun _ => ?_
    refine (removeFile_at none _).weaken (fun s hs => hs)
      (fun _ s hs => ⟨hs.2.1, hs.logged_nil False.elim⟩) ?_
    rintro error s ⟨files', hs⟩
    exact hs.logged_nil fun h => h.1.elim

/-- Where source and destination differ, removing the source after the destination
was written is what the logged move replays to. -/
theorem applyMove_logged (dest : Path) (patch : AppliedPatch) :
    Triple (At fs changes files promise) (applyMove fs paths path dest patch)
      (fun _ s => fs.files s.world = (files.insert dest patch.newContents).erase path ∧
        (dest ≠ path → Logged fs changes files promise s))
      (fun _ => Logged fs changes files promise) := by
  refine .bind (readOptionalFileTextForDelta_at dest) fun overwrittenMoveContent => ?_
  refine .bind writeFileWithMissingParentRetry_at fun result => ?_
  refine .bind (tryWrite_logged result) fun _ => ?_
  refine .bind (Q := fun index s => index = changes.length ∧
    At fs changes (files.insert dest patch.newContents) promise s)
    (.step fun s hs => ⟨by rw [hs.1], hs⟩) fun index => of_pure fun hindex => ?_
  refine .bind (pushChange_at _) fun _ => ?_
  refine .bind ((removeFile_at _ _).of_error ?_) fun _ => ?_
  · rintro error s ⟨files', hs⟩
    exact hs.logged fun h => ⟨h.1, h.2.symm⟩
  · refine .update fun s hs => ⟨hs.2.1, fun hne => ?_⟩
    refine ⟨[⟨path, .update (some dest) patch.originalContents overwrittenMoveContent
      patch.newContents⟩], ?_, fun hexact => ⟨hs.2.2 hexact, ?_⟩⟩
    · dsimp only
      rw [hs.1, hindex, List.set_append_right _ _ (le_refl _), Nat.sub_self, List.set_cons_zero]
    · rw [hs.2.1]
      exact insert_erase_comm hne _ _

/-- What a hunk that succeeds has done to the files. -/
def Hunk.Effect (paths : PathOps Path) (cwd : Path) (hunk : Hunk)
    (files files' : FileMap Path) : Prop :=
  ∃ path, hunk.resolvePath paths cwd = .ok path ∧
    match hunk with
    | .addFile _ contents => files' = files.insert path contents
    | .deleteFile _ => files' = files.erase path
    | .updateFile _ movePath chunks =>
      ∃ old new, files.lookup path = some old ∧
        newContents (paths.inferredNativePathString path) chunks old = .ok new ∧
        match movePath with
        | none => files' = files.insert path new
        | some dest => ∃ destUri, paths.join cwd dest = .ok destUri ∧
            files' = (files.insert destUri new).erase path

/-- The hunk is an update whose move destination is the file it updates. -/
def Hunk.MovesOntoItself (paths : PathOps Path) (cwd : Path) : Hunk → Prop
  | .updateFile path (some dest) _ =>
    ∃ resolved, paths.join cwd path = .ok resolved ∧ paths.join cwd dest = .ok resolved
  | _ => False

theorem applyUpdateFile_logged {name : Str} {movePath : Option Str}
    {chunks : List UpdateFileChunk} (hpath : paths.join cwd name = .ok path) :
    Triple (At fs changes files promise) (applyUpdateFile fs paths cwd path movePath chunks)
      (fun _ s => (Hunk.updateFile name movePath chunks).Effect paths cwd files (fs.files s.world) ∧
        (¬ (Hunk.updateFile name movePath chunks).MovesOntoItself paths cwd →
          Logged fs changes files promise s))
      (fun _ => Logged fs changes files promise) := by
  refine .bind (noteExistingPathDeltaSupport_at path) fun _ => ?_
  refine .bind (call_readFileText_at path) fun read => of_pure fun hread => ?_
  have herror : ∀ (_ : ApplyError) s, At fs changes files promise s →
      Logged fs changes files promise s := fun _ s hs => hs.logged_nil fun h => ⟨h, rfl⟩
  refine .bind (.ofExcept_mapError herror) fun patch => of_pure fun hpatch => ?_
  obtain ⟨hold, hnew⟩ := deriveNewContentsFromChunks_eq_ok hpatch
  have hlookup := hread _ hold
  cases movePath with
  | none =>
    refine .bind (writeFile_at.of_pre fun s hs => ⟨files, rfl, hs⟩) fun result => ?_
    refine .bind (tryWrite_logged result) fun _ => ?_
    refine (pushChange_at _).weaken (fun s hs => hs) (fun _ s hs => ⟨?_, fun _ => ?_⟩)
      (fun _ s hs => hs)
    · exact ⟨path, hpath, _, _, hlookup, hnew, hs.2.1⟩
    · exact hs.logged fun h => ⟨h, rfl⟩
  | some dest =>
    refine .bind (.ofExcept_mapError herror) fun destUri => of_pure fun hdest => ?_
    refine (applyMove_logged destUri patch).weaken (fun s hs => hs) (fun _ s hs => ⟨?_, ?_⟩)
      (fun _ s hs => hs)
    · exact ⟨path, hpath, _, _, hlookup, hnew, destUri, hdest, hs.1⟩
    · intro hmoves
      exact hs.2 fun heq => hmoves ⟨path, hpath, heq ▸ hdest⟩

/-- One hunk: what it has done if it succeeds, and what it has logged however it
ends. -/
theorem applyHunk_logged (affected : AffectedPaths) (hunk : Hunk) :
    Triple (At fs changes files promise) (applyHunk fs paths cwd affected hunk)
      (fun _ s => hunk.Effect paths cwd files (fs.files s.world) ∧
        (¬ hunk.MovesOntoItself paths cwd → Logged fs changes files promise s))
      (fun _ => Logged fs changes files promise) := by
  refine .bind (.ofExcept_mapError fun _ s hs => hs.logged_nil fun h => ⟨h, rfl⟩) fun path =>
    of_pure fun hpath => ?_
  cases hunk with
  | addFile name contents =>
    refine .bind (applyAddFile_logged contents) fun _ => .pure fun s hs => ?_
    exact ⟨⟨path, hpath, hs.1⟩, fun _ => hs.2⟩
  | deleteFile name =>
    refine .bind applyDeleteFile_logged fun _ => .pure fun s hs => ?_
    exact ⟨⟨path, hpath, hs.1⟩, fun _ => hs.2⟩
  | updateFile name movePath chunks =>
    exact .bind (applyUpdateFile_logged hpath) fun _ => .pure fun s hs => hs

end Hunks

/-! ## Every run -/

section Runs

variable {fs : ExecutorFileSystem Path World} {paths : PathOps Path} {cwd : Path}
  {init : FileMap Path}

/-- An exact log replays to the files there are. -/
def Consistent (fs : ExecutorFileSystem Path World) (init : FileMap Path)
    (s : ApplyState Path World) : Prop :=
  s.delta.exact = true → replay init s.delta.changes = fs.files s.world

theorem Logged.consistent {changes : List (AppliedPatchChange Path)} {files : FileMap Path}
    {s : ApplyState Path World} (h : Logged fs changes files (replay init changes = files) s) :
    Consistent fs init s := by
  obtain ⟨log, hchanges, hlog⟩ := h
  intro hexact
  obtain ⟨hstart, hreplay⟩ := hlog hexact
  rw [hchanges, replay_append, hstart, hreplay]

theorem applyHunk_consistent {hunk : Hunk} (hmove : ¬ hunk.MovesOntoItself paths cwd)
    (affected : AffectedPaths) :
    Triple (Consistent fs init) (applyHunk fs paths cwd affected hunk)
      (fun _ => Consistent fs init) (fun _ => Consistent fs init) := by
  have hhunk : ∀ start : List (AppliedPatchChange Path) × FileMap Path,
      Triple (At fs start.1 start.2 (replay init start.1 = start.2))
        (applyHunk fs paths cwd affected hunk) (fun _ => Consistent fs init)
        (fun _ => Consistent fs init) :=
    fun start => (applyHunk_logged affected hunk).weaken (fun s hs => hs)
      (fun _ s hs => (hs.2 hmove).consistent) (fun _ s hs => hs.consistent)
  refine (of_forall hhunk).of_pre fun s hs => ?_
  exact ⟨(s.delta.changes, fs.files s.world), rfl, rfl, hs⟩

/-- In every run of `apply_hunks_to_files`, on every filesystem and however it
ends, an exact delta replays to the files there are in the end, provided no hunk
moves a file onto itself. -/
theorem applyHunksToFiles_exact_delta_replays (fs : ExecutorFileSystem Path World)
    (paths : PathOps Path) (cwd : Path) (hunks : List Hunk)
    (hmove : ∀ hunk ∈ hunks, ¬ hunk.MovesOntoItself paths cwd) (w : World) :
    let final := ((applyHunksToFiles fs paths cwd hunks).exec ⟨w, .empty⟩).2
    final.delta.exact = true → replay (fs.files w) final.delta.changes = fs.files final.world := by
  have hrun : Triple (Consistent fs (fs.files w)) (applyHunksToFiles fs paths cwd hunks)
      (fun _ => Consistent fs (fs.files w)) (fun _ => Consistent fs (fs.files w)) := by
    unfold applyHunksToFiles
    split_ifs
    · exact .throw fun s hs => hs
    · exact foldlM (fun affected hunk hmem => applyHunk_consistent (hmove hunk hmem) affected) _
  exact state hrun fun _ => rfl

/-- The removal of a moved file fails without an effect: the delta is exact and
logs the written destination only. -/
theorem applyHunksToFiles_exact_delta_replays_failed_removal :
    let fs : ExecutorFileSystem Str (ScriptedWorld Str) := scripted
    let hunks : List Hunk := [.updateFile ['a'] (some ['b']) [⟨none, [['x']], [['y']], [], false⟩]]
    let w : ScriptedWorld Str :=
      ⟨Finmap.singleton ['a'] ['x', '\n'],
        [none, none, none, none, none, none, some ⟨⟨.other, []⟩, none⟩]⟩
    let final := ((applyHunksToFiles fs textPaths [] hunks).exec ⟨w, .empty⟩).2
    final.delta.exact = true ∧ final.delta.changes = [⟨['b'], .add ['y', '\n'] none⟩] ∧
      replay w.files final.delta.changes = final.world.files := by
  intro fs hunks w final
  have hmove : ∀ hunk ∈ hunks, ¬ hunk.MovesOntoItself textPaths [] := by
    intro hunk hmem
    rw [List.mem_singleton.mp hmem]
    rintro ⟨resolved, hsource, hdest⟩
    cases hsource.trans hdest.symm
  have hexact : final.delta.exact = true := by decide
  exact ⟨hexact, by decide,
    applyHunksToFiles_exact_delta_replays fs textPaths [] hunks hmove w hexact⟩

/-- A file that is moved onto itself is written and then removed, while the exact
delta says that it was updated. -/
theorem applyHunksToFiles_move_onto_itself_lost :
    let hunks : List Hunk := [.updateFile ['a'] (some ['a']) [⟨none, [['x']], [['y']], [], false⟩]]
    let w : ScriptedWorld Str := ⟨Finmap.singleton ['a'] ['x', '\n'], []⟩
    let run := (applyHunksToFiles scripted textPaths [] hunks).exec ⟨w, .empty⟩
    run.1 = .ok ⟨[], [['a']], []⟩ ∧ run.2.delta.exact = true ∧
      (replay w.files run.2.delta.changes).lookup ['a'] = some ['y', '\n'] ∧
      run.2.world.files.lookup ['a'] = none := by
  decide

end Runs

end Codex.ApplyPatch
