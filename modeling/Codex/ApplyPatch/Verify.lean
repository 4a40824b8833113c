import Codex.ApplyPatch.Apply

/-!
# The changes shown for approval

Before a patch is applied, `try_verify_apply_patch_args` computes the change each
hunk would make and collects them in a map by path, which the user is asked to
approve.  It computes every change against the files as they are, and rejects a
patch only when two hunks start from the same path; the hunks are later applied
one after the other, each to what the earlier ones have left.

The two agree when no hunk gets in the way of another through the destination of
a move (`NonInterfering`): then each hunk finds the file it starts from as it
was, and nobody touches its target afterwards.

`approved_changes_describe_outcome` compares both runs hunk by hunk: what was approved
(`tryVerifyApplyPatchArgs_approved`) and what the hunks have done (`applyHunksToFiles_effects`)
are about the same file, and nothing touches it later (`Approved.describes`).  Without the
condition a change can be lost (`approved_change_lost_after_move_over`).
-/

namespace Codex.ApplyPatch

open Triple ApplyPatchError List

variable {Path World : Type} [DecidableEq Path]

inductive ApplyPatchFileChange (Path : Type) where
  | add (content : Str)
  | delete (content : Str)
  | update (unifiedDiff : Str) (movePath : Option Path) (newContent : Str)
  deriving DecidableEq, Repr

structure ApplyPatchAction (Path : Type) where
  changes : Finmap fun _ : Path => ApplyPatchFileChange Path
  patch : Str
  cwd : Path
  deriving DecidableEq

/-- The directory the hunks are resolved against. -/
def effectiveCwd (paths : PathOps Path) (cwd : Path) (workdir : Option Str) : Except Str Path :=
  match workdir with
  | some dir => paths.join cwd dir
  | none => .ok cwd

section Model

variable (fs : ExecutorFileSystem Path World) (paths : PathOps Path)
  -- the text of a unified diff, made by the `similar` crate
  (unifiedDiff : Str → Str → ℕ → Str)

/-- The destination of a move, resolved. -/
def resolveMove (cwd : Path) : Option Str → Except ApplyPatchError (Option Path)
  | none => .ok none
  | some dest => ((paths.join cwd dest).mapError pathUri).map some

/-- The change of one hunk, against the files as they are. -/
def verifyHunk (cwd : Path) (changes : Finmap fun _ : Path => ApplyPatchFileChange Path)
    (hunk : Hunk) :
    Prog ApplyPatchError World (Finmap fun _ : Path => ApplyPatchFileChange Path) := do
  let path ← Prog.ofExcept ((hunk.resolvePath paths cwd).mapError pathUri)
  if path ∈ changes then
    throw (.invalidPatch ("multiple operations target ".toList ++
      paths.inferredNativePathString path))
  else
    match hunk with
    | .addFile _ contents => return changes.insert path (.add contents)
    | .deleteFile _ =>
      let read ← Prog.step (fs.readFileText path)
      let content ← Prog.ofExcept (read.mapError
        (ioError ("Failed to read ".toList ++ paths.inferredNativePathString path)))
      return changes.insert path (.delete content)
    | .updateFile _ movePath chunks =>
      let read ← Prog.step (fs.readFileText path)
      let patch ← Prog.ofExcept
        (deriveNewContentsFromChunks (paths.inferredNativePathString path) chunks read)
      let movePath ← Prog.ofExcept (resolveMove paths cwd movePath)
      return changes.insert path (.update
        (unifiedDiff patch.originalContents patch.newContents 1) movePath patch.newContents)

def tryVerifyApplyPatchArgs (args : ApplyPatchArgs) (cwd : Path) :
    Prog ApplyPatchError World (ApplyPatchAction Path) := do
  let cwd ← Prog.ofExcept ((effectiveCwd paths cwd args.workdir).mapError pathUri)
  let changes ← args.hunks.foldlM (verifyHunk fs paths unifiedDiff cwd) ∅
  return { changes, patch := args.patch, cwd }

end Model

/-! ## How hunks get in each other's way -/

section Interference

variable (paths : PathOps Path) (cwd : Path)

/-- The hunk is an update that moves its file to `dest`. -/
def Hunk.MovesTo (hunk : Hunk) (dest : Path) : Prop :=
  match hunk with
  | .updateFile _ (some name) _ => paths.join cwd name = .ok dest
  | _ => False

/-- The hunk reads, writes or deletes the file at `path` as its own. -/
def Hunk.StartsFrom (hunk : Hunk) (path : Path) : Prop :=
  hunk.resolvePath paths cwd = .ok path

/-- The outcome of the hunk is at `path`: the destination, for a move. -/
def Hunk.Targets (hunk : Hunk) (path : Path) : Prop :=
  paths.join cwd hunk.path = .ok path

/-- Neither of two hunks moves a file to where the other one leaves its outcome,
and the earlier one does not move a file to where the later one starts from. -/
structure Hunk.Independent (earlier later : Hunk) : Prop where
  earlier_moves : ∀ dest, earlier.MovesTo paths cwd dest →
    ¬ later.StartsFrom paths cwd dest ∧ ¬ later.Targets paths cwd dest
  later_moves : ∀ dest, later.MovesTo paths cwd dest → ¬ earlier.Targets paths cwd dest

/-- No hunk moves a file onto itself or in the way of another hunk. -/
structure NonInterfering (hunks : List Hunk) : Prop where
  moves : ∀ hunk ∈ hunks, ¬ hunk.MovesOntoItself paths cwd
  independent : hunks.Pairwise (Hunk.Independent paths cwd)

end Interference

/-! ## What has been approved -/

section Approval

variable (paths : PathOps Path) (cwd : Path)

/-- `change` is what `hunk` does to the files as they are. -/
def Hunk.Approves (files : FileMap Path) (hunk : Hunk) (path : Path)
    (change : ApplyPatchFileChange Path) : Prop :=
  hunk.StartsFrom paths cwd path ∧
    match hunk, change with
    | .addFile _ contents, .add content => content = contents
    | .deleteFile _, .delete content => files.lookup path = some content
    | .updateFile _ movePath chunks, .update _ destPath newContent =>
      resolveMove paths cwd movePath = .ok destPath ∧
      ∃ old, files.lookup path = some old ∧
        newContents (paths.inferredNativePathString path) chunks old = .ok newContent
    | _, _ => False

/-- The map of changes after the hunks `done`: its entries are theirs, and no two
of them start from the same path. -/
structure Approved (files : FileMap Path) (done : List Hunk)
    (changes : Finmap fun _ : Path => ApplyPatchFileChange Path) : Prop where
  entries : ∀ path change, changes.lookup path = some change →
    ∃ hunk ∈ done, hunk.Approves paths cwd files path change
  sources : ∀ hunk ∈ done, ∀ path, hunk.StartsFrom paths cwd path → path ∈ changes
  distinct : done.Pairwise fun earlier later =>
    ∀ path, earlier.StartsFrom paths cwd path → ¬ later.StartsFrom paths cwd path

variable {paths cwd} {files : FileMap Path}

theorem Approved.nil : Approved paths cwd files [] ∅ where
  entries path change h := by simp at h
  sources hunk h := by simp at h
  distinct := List.Pairwise.nil

theorem Approved.insert {done : List Hunk}
    {changes : Finmap fun _ : Path => ApplyPatchFileChange Path} {hunk : Hunk} {path : Path}
    {change : ApplyPatchFileChange Path} (happroved : Approved paths cwd files done changes)
    (hnew : path ∉ changes) (hchange : hunk.Approves paths cwd files path change) :
    Approved paths cwd files (done ++ [hunk]) (changes.insert path change) where
  entries := by
    intro other change' hlookup
    by_cases heq : other = path
    · subst heq
      rw [Finmap.lookup_insert] at hlookup
      cases hlookup
      exact ⟨hunk, by simp, hchange⟩
    · rw [Finmap.lookup_insert_of_ne _ heq] at hlookup
      obtain ⟨hunk', hmem, happroves⟩ := happroved.entries other change' hlookup
      exact ⟨hunk', mem_append_left _ hmem, happroves⟩
  sources := by
    intro hunk' hmem other hstart
    rw [Finmap.mem_insert]
    rcases mem_append.mp hmem with hdone | hlast
    · exact .inr (happroved.sources hunk' hdone other hstart)
    · rw [mem_singleton.mp hlast] at hstart
      exact .inl (Except.ok.inj (hstart.symm.trans hchange.1))
  distinct := by
    refine pairwise_append.mpr ⟨happroved.distinct, pairwise_singleton _ _, ?_⟩
    intro earlier hearlier later hlater other hstart hstart'
    rw [mem_singleton.mp hlater] at hstart'
    have heq : other = path := Except.ok.inj (hstart'.symm.trans hchange.1)
    exact hnew (heq ▸ happroved.sources earlier hearlier other hstart)

variable {fs : ExecutorFileSystem Path World} {unifiedDiff : Str → Str → ℕ → Str}
  {E : ApplyPatchError → World → Prop}

omit [DecidableEq Path] in
theorem ofExcept_trivial {α : Type} {P : World → Prop} (result : Except ApplyPatchError α) :
    Triple P (Prog.ofExcept result) (fun value w => result = .ok value ∧ P w)
      (fun _ _ => True) := by
  cases result with
  | ok value => exact .pure fun w hw => ⟨rfl, hw⟩
  | error error => exact .throw fun _ _ => trivial

/-- Reading a file leaves the files alone and returns the text that is there. -/
theorem step_readFileText (path : Path) :
    Triple (fun w => fs.files w = files) (Prog.step (fs.readFileText path))
      (fun read w => (∀ content, read = .ok content → files.lookup path = some content) ∧
        fs.files w = files) E := by
  refine .step fun w hw => ⟨fun content hread => ?_, ?_⟩
  · rw [← hw]
    exact fs.lookup_of_read path w content hread
  · rw [fs.files_readFileText, hw]

theorem verifyHunk_approved (done : List Hunk) (hunk : Hunk)
    (changes : Finmap fun _ : Path => ApplyPatchFileChange Path) :
    Triple (fun w => Approved paths cwd files done changes ∧ fs.files w = files)
      (verifyHunk fs paths unifiedDiff cwd changes hunk)
      (fun changes w => Approved paths cwd files (done ++ [hunk]) changes ∧ fs.files w = files)
      (fun _ _ => True) := by
  refine of_pure fun happroved => ?_
  refine .bind (.ofExcept_mapError fun _ _ _ => trivial) fun path => of_pure fun hpath => ?_
  split_ifs with hnew
  · exact .throw fun _ _ => trivial
  cases hunk with
  | addFile name contents =>
    exact .pure fun w hw => ⟨happroved.insert hnew ⟨hpath, rfl⟩, hw⟩
  | deleteFile name =>
    refine .bind (step_readFileText path) fun read => of_pure fun hread => ?_
    refine .bind (.ofExcept_mapError fun _ _ _ => trivial) fun content =>
      of_pure fun hcontent => ?_
    exact .pure fun w hw =>
      ⟨happroved.insert hnew ⟨hpath, hread content hcontent⟩, hw⟩
  | updateFile name movePath chunks =>
    refine .bind (step_readFileText path) fun read => of_pure fun hread => ?_
    refine .bind (ofExcept_trivial _) fun patch => of_pure fun hpatch => ?_
    refine .bind (ofExcept_trivial _) fun destPath => of_pure fun hdest => ?_
    obtain ⟨hold, hnewContents⟩ := deriveNewContentsFromChunks_eq_ok hpatch
    exact .pure fun w hw =>
      ⟨happroved.insert hnew ⟨hpath, hdest, _, hread _ hold, hnewContents⟩, hw⟩

theorem tryVerifyApplyPatchArgs_approved {args : ApplyPatchArgs} {start : Path}
    (hcwd : effectiveCwd paths start args.workdir = .ok cwd) :
    Triple (fun w => fs.files w = files) (tryVerifyApplyPatchArgs fs paths unifiedDiff args start)
      (fun action w => action.cwd = cwd ∧
        Approved paths cwd files args.hunks action.changes ∧ fs.files w = files)
      (fun _ _ => True) := by
  refine .bind (.ofExcept_mapError fun _ _ _ => trivial) fun resolved =>
    of_pure fun hresolved => ?_
  obtain rfl : resolved = cwd := Except.ok.inj (hresolved.symm.trans hcwd)
  refine .bind (.of_pre (foldlM_done verifyHunk_approved [] _ _) fun w hw => ⟨Approved.nil, hw⟩)
    fun changes => ?_
  exact .pure fun w hw => ⟨rfl, hw⟩

end Approval

/-! ## What has been applied -/

section Application

variable (paths : PathOps Path) (cwd : Path)

/-- The effects of hunks carried out one after the other. -/
def Effects : List Hunk → FileMap Path → FileMap Path → Prop
  | [], files, files' => files' = files
  | hunk :: rest, files, files' =>
    ∃ next, hunk.Effect paths cwd files next ∧ Effects rest next files'

variable {paths cwd} {files files' : FileMap Path}

theorem effects_append {first second : List Hunk} :
    Effects paths cwd (first ++ second) files files' ↔
      ∃ middle, Effects paths cwd first files middle ∧ Effects paths cwd second middle files' := by
  induction first generalizing files with
  | nil => exact ⟨fun h => ⟨files, rfl, h⟩, fun ⟨_, heq, h⟩ => heq ▸ h⟩
  | cons hunk rest ih =>
    constructor
    · rintro ⟨next, hhunk, hrest⟩
      obtain ⟨middle, hfirst, hsecond⟩ := ih.mp hrest
      exact ⟨middle, ⟨next, hhunk, hfirst⟩, hsecond⟩
    · rintro ⟨middle, ⟨next, hhunk, hfirst⟩, hsecond⟩
      exact ⟨next, hhunk, ih.mpr ⟨middle, hfirst, hsecond⟩⟩

variable {path : Path}

/-- A hunk touches the file it starts from and the destination of its move only. -/
theorem Hunk.Effect.lookup_of_ne {hunk : Hunk} (heffect : hunk.Effect paths cwd files files')
    (hstart : ¬ hunk.StartsFrom paths cwd path) (hmove : ¬ hunk.MovesTo paths cwd path) :
    files'.lookup path = files.lookup path := by
  obtain ⟨source, hsource, hdone⟩ := heffect
  have hne : path ≠ source := fun heq => hstart (heq ▸ hsource)
  cases hunk with
  | addFile name contents => rw [hdone, Finmap.lookup_insert_of_ne _ hne]
  | deleteFile name => rw [hdone, Finmap.lookup_erase_ne hne]
  | updateFile name movePath chunks =>
    obtain ⟨old, new, -, -, hmoved⟩ := hdone
    cases movePath with
    | none => rw [hmoved, Finmap.lookup_insert_of_ne _ hne]
    | some dest =>
      obtain ⟨destUri, hdest, hfiles⟩ := hmoved
      have hne' : path ≠ destUri := fun heq => hmove (heq ▸ hdest)
      rw [hfiles, Finmap.lookup_erase_ne hne, Finmap.lookup_insert_of_ne _ hne']

theorem Effects.lookup_of_ne {hunks : List Hunk} (heffects : Effects paths cwd hunks files files')
    (hstart : ∀ hunk ∈ hunks, ¬ hunk.StartsFrom paths cwd path)
    (hmove : ∀ hunk ∈ hunks, ¬ hunk.MovesTo paths cwd path) :
    files'.lookup path = files.lookup path := by
  induction hunks generalizing files with
  | nil => rw [heffects]
  | cons hunk rest ih =>
    obtain ⟨next, hhunk, hrest⟩ := heffects
    rw [ih hrest (fun h hmem => hstart h (mem_cons_of_mem _ hmem))
        (fun h hmem => hmove h (mem_cons_of_mem _ hmem)),
      hhunk.lookup_of_ne (hstart hunk (mem_cons_self ..)) (hmove hunk (mem_cons_self ..))]

theorem applyHunksToFiles_effects {fs : ExecutorFileSystem Path World} {hunks : List Hunk} :
    Triple (fun s => fs.files s.world = files) (applyHunksToFiles fs paths cwd hunks)
      (fun _ s => Effects paths cwd hunks files (fs.files s.world)) (fun _ _ => True) := by
  unfold applyHunksToFiles
  split_ifs
  · exact .throw fun _ _ => trivial
  have hhunk : ∀ done hunk affected,
      Triple (fun s => Effects paths cwd done files (fs.files s.world))
        (applyHunk fs paths cwd affected hunk)
        (fun _ s => Effects paths cwd (done ++ [hunk]) files (fs.files s.world))
        (fun _ _ => True) := by
    intro done hunk affected s hs
    have hstep : Triple (At fs s.delta.changes (fs.files s.world) True)
        (applyHunk fs paths cwd affected hunk)
        (fun _ s' => Effects paths cwd (done ++ [hunk]) files (fs.files s'.world))
        (fun _ _ => True) :=
      (applyHunk_logged affected hunk).weaken (fun _ h => h)
        (fun _ _ h => effects_append.mpr ⟨_, hs, _, h.1, rfl⟩) (fun _ _ _ => trivial)
    exact hstep s ⟨rfl, rfl, fun _ => trivial⟩
  exact (foldlM_done hhunk [] hunks ⟨[], [], []⟩).of_pre fun s hs => hs

/-- The approved change describes what is there in the end. -/
def ApplyPatchFileChange.Describes (files : FileMap Path) (path : Path) :
    ApplyPatchFileChange Path → Prop
  | .add content => files.lookup path = some content
  | .delete _ => files.lookup path = none
  | .update _ movePath newContent => files.lookup (movePath.getD path) = some newContent

variable {change : ApplyPatchFileChange Path}

/-- A hunk that finds its file as it was when it was approved leaves the approved
outcome at its target. -/
theorem Hunk.Approves.describes {start : FileMap Path} {hunk : Hunk}
    (happroves : hunk.Approves paths cwd start path change)
    (heffect : hunk.Effect paths cwd files files') (hsame : files.lookup path = start.lookup path)
    (hmoves : ¬ hunk.MovesOntoItself paths cwd) : change.Describes files' path := by
  obtain ⟨hstart, hchange⟩ := happroves
  obtain ⟨source, hsource, hdone⟩ := heffect
  obtain rfl : source = path := Except.ok.inj (hsource.symm.trans hstart)
  cases hunk with
  | addFile name contents =>
    cases change <;> simp only at hchange
    subst hchange hdone
    exact Finmap.lookup_insert _
  | deleteFile name =>
    cases change <;> simp only at hchange
    subst hdone
    exact Finmap.lookup_erase _ _
  | updateFile name movePath chunks =>
    cases change <;> simp only at hchange
    obtain ⟨hmove, old, hold, hnew⟩ := hchange
    obtain ⟨old', new, hold', hnew', hmoved⟩ := hdone
    obtain rfl : old' = old := Option.some.inj (hold'.symm.trans (hsame.trans hold))
    obtain rfl := Except.ok.inj (hnew'.symm.trans hnew)
    cases movePath with
    | none =>
      cases hmove
      rw [hmoved]
      exact Finmap.lookup_insert _
    | some dest =>
      obtain ⟨destUri, hdest, hfiles⟩ := hmoved
      rw [resolveMove, hdest] at hmove
      cases hmove
      have hne : destUri ≠ source := fun heq => hmoves ⟨source, hsource, heq ▸ hdest⟩
      rw [hfiles]
      exact (Finmap.lookup_erase_ne hne).trans (Finmap.lookup_insert _)

/-- Where the approved outcome of a hunk is, the hunk itself has left it. -/
theorem Hunk.Approves.targets {start : FileMap Path} {hunk : Hunk}
    (happroves : hunk.Approves paths cwd start path change) :
    ∃ target, hunk.Targets paths cwd target ∧
      (hunk.StartsFrom paths cwd target ∨ hunk.MovesTo paths cwd target) ∧
      ∀ files files' : FileMap Path, files'.lookup target = files.lookup target →
        change.Describes files path → change.Describes files' path := by
  obtain ⟨hstart, hchange⟩ := happroves
  cases hunk with
  | addFile name contents | deleteFile name =>
    cases change <;> simp only at hchange
    exact ⟨path, hstart, .inl hstart, fun _ _ h hfiles => h.trans hfiles⟩
  | updateFile name movePath chunks =>
    cases change <;> simp only at hchange
    obtain ⟨hmove, -⟩ := hchange
    cases movePath with
    | none =>
      cases hmove
      exact ⟨path, hstart, .inl hstart, fun _ _ h hfiles => h.trans hfiles⟩
    | some dest =>
      cases hdest : paths.join cwd dest with
      | error message =>
        rw [resolveMove, hdest] at hmove
        cases hmove
      | ok destUri =>
        rw [resolveMove, hdest] at hmove
        cases hmove
        exact ⟨destUri, hdest, .inr hdest, fun _ _ h hfiles => h.trans hfiles⟩

/-- Hunks that do not interfere leave every approved outcome behind. -/
theorem Approved.describes {hunks : List Hunk}
    {changes : Finmap fun _ : Path => ApplyPatchFileChange Path}
    (happroved : Approved paths cwd files hunks changes) (hnon : NonInterfering paths cwd hunks)
    (heffects : Effects paths cwd hunks files files') (hchange : changes.lookup path = some change) :
    change.Describes files' path := by
  obtain ⟨hunk, hmem, happroves⟩ := happroved.entries path change hchange
  obtain ⟨earlier, later, rfl⟩ := append_of_mem hmem
  obtain ⟨before, hearlier, after, hhunk, hlater⟩ := effects_append.mp heffects
  obtain ⟨-, hdistinctLater, hdistinctEarlier⟩ := pairwise_append.mp happroved.distinct
  obtain ⟨-, hindependentLater, hindependentEarlier⟩ := pairwise_append.mp hnon.independent
  -- the earlier hunks have left the source alone
  have hsame : before.lookup path = files.lookup path := by
    apply hearlier.lookup_of_ne
    · intro other hother hstart
      exact hdistinctEarlier other hother hunk (mem_cons_self ..) path hstart happroves.1
    · intro other hother hmove
      exact ((hindependentEarlier other hother hunk (mem_cons_self ..)).earlier_moves path
        hmove).1 happroves.1
  have hafter := happroves.describes hhunk hsame (hnon.moves hunk hmem)
  -- and the later ones leave the target alone
  obtain ⟨target, htargets, htarget, hkeep⟩ := happroves.targets
  refine hkeep after files' (hlater.lookup_of_ne ?_ ?_) hafter
  · intro other hother hstart
    rcases htarget with hsource | hmove
    · exact (pairwise_cons.mp hdistinctLater).1 other hother target hsource hstart
    · exact (((pairwise_cons.mp hindependentLater).1 other hother).earlier_moves target
        hmove).1 hstart
  · intro other hother hmove
    exact ((pairwise_cons.mp hindependentLater).1 other hother).later_moves target hmove htargets

end Application

/-- What was shown for approval is what is there in the end: if the arguments are
verified and their hunks are then applied to the same files, both with success,
every approved change describes the outcome, provided the hunks do not interfere.
Calls that failed in between, and were retried, make no difference. -/
theorem approved_changes_describe_outcome (fs : ExecutorFileSystem Path World)
    (paths : PathOps Path) (unifiedDiff : Str → Str → ℕ → Str) (args : ApplyPatchArgs)
    (start cwd : Path) (hcwd : effectiveCwd paths start args.workdir = .ok cwd)
    (hnon : NonInterfering paths cwd args.hunks) (w w' : World)
    (hsame : fs.files w' = fs.files w) {action : ApplyPatchAction Path} {affected : AffectedPaths}
    (hverify : ((tryVerifyApplyPatchArgs fs paths unifiedDiff args start).exec w).1 = .ok action)
    (happly : ((applyHunksToFiles fs paths action.cwd args.hunks).exec ⟨w', .empty⟩).1 =
      .ok affected) :
    let final := ((applyHunksToFiles fs paths action.cwd args.hunks).exec ⟨w', .empty⟩).2
    ∀ path change, action.changes.lookup path = some change →
      change.Describes (fs.files final.world) path := by
  obtain ⟨haction, happroved, -⟩ :=
    (tryVerifyApplyPatchArgs_approved hcwd).of_ok (rfl : fs.files w = fs.files w) hverify
  have heffects := applyHunksToFiles_effects.of_ok hsame happly
  intro final path change hchange
  exact happroved.describes hnon (haction ▸ heffects) hchange

/-- A file is added, another one is changed and moved. -/
theorem approved_changes_describe_outcome_add_and_move :
    let fs : ExecutorFileSystem Str (ScriptedWorld Str) := scripted
    let args : ApplyPatchArgs :=
      ⟨[], [.addFile ['n'] ['z'], .updateFile ['a'] (some ['b']) [⟨none, [], [['x']], [], false⟩]],
        none, none⟩
    let w : ScriptedWorld Str := ⟨Finmap.singleton ['a'] ['A', '\n'], []⟩
    let moved : ApplyPatchFileChange Str := .update [] (some ['b']) ['A', '\n', 'x', '\n']
    let action : ApplyPatchAction Str :=
      ⟨Finmap.insert ['a'] moved (Finmap.insert ['n'] (.add ['z']) ∅), [], []⟩
    let run := (applyHunksToFiles fs textPaths action.cwd args.hunks).exec ⟨w, .empty⟩
    ((tryVerifyApplyPatchArgs fs textPaths (fun _ _ _ => []) args []).exec w).1 = .ok action ∧
      run.1 = .ok ⟨[['n']], [['b']], []⟩ ∧ moved.Describes (fs.files run.2.world) ['a'] := by
  intro fs args w moved action run
  have hnon : NonInterfering textPaths [] args.hunks := by
    refine ⟨?_, pairwise_pair.mpr ⟨?_, ?_⟩⟩
    · intro hunk hmem
      rcases mem_pair.mp hmem with rfl | rfl
      · exact id
      · rintro ⟨resolved, hsource, hdest⟩
        cases hsource.trans hdest.symm
    · exact fun dest hmove => hmove.elim
    · intro dest hmove htarget
      have hb : (Except.ok ['b'] : Except Str Str) = .ok dest := hmove
      have hn : (Except.ok ['n'] : Except Str Str) = .ok dest := htarget
      cases hb.trans hn.symm
  have hverify : ((tryVerifyApplyPatchArgs fs textPaths (fun _ _ _ => []) args []).exec w).1 =
      .ok action := by decide
  have happly : ((applyHunksToFiles fs textPaths action.cwd args.hunks).exec ⟨w, .empty⟩).1 =
      .ok ⟨[['n']], [['b']], []⟩ := by decide
  have hchange : action.changes.lookup ['a'] = some moved := by decide
  have hcwd : effectiveCwd textPaths [] args.workdir = .ok [] := rfl
  clear_value moved action w args fs
  exact ⟨hverify, happly, approved_changes_describe_outcome fs textPaths (fun _ _ _ => []) args [] []
    hcwd hnon w w rfl hverify happly ['a'] moved hchange⟩

/-- A file is moved over another one that a later hunk updates.  The later change
was computed, and approved, for the file that is overwritten. -/
theorem approved_change_lost_after_move_over :
    let args : ApplyPatchArgs :=
      ⟨[], [.updateFile ['a'] (some ['b']) [⟨none, [], [['x']], [], false⟩],
        .updateFile ['b'] none [⟨none, [], [['y']], [], false⟩]], none, none⟩
    let w : ScriptedWorld Str :=
      ⟨Finmap.insert ['b'] ['B', '\n'] (Finmap.singleton ['a'] ['A', '\n']), []⟩
    let action : ApplyPatchAction Str :=
      ⟨Finmap.insert ['b'] (.update [] none ['B', '\n', 'y', '\n'])
        (Finmap.insert ['a'] (.update [] (some ['b']) ['A', '\n', 'x', '\n']) ∅), [], []⟩
    ((tryVerifyApplyPatchArgs scripted textPaths (fun _ _ _ => []) args []).exec w).1 = .ok action ∧
    let run := (applyHunksToFiles scripted textPaths [] args.hunks).exec ⟨w, .empty⟩
    run.1 = .ok ⟨[], [['b'], ['b']], []⟩ ∧
      run.2.world.files.lookup ['b'] = some ['A', '\n', 'x', '\n', 'y', '\n'] := by
  decide

end Codex.ApplyPatch
