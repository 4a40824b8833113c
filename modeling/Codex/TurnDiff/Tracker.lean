import Codex.ApplyPatch.Delta

/-!
# The turn diff tracker

`TurnDiffTracker` follows the files a turn has touched without reading the
workspace again.  It is told of every committed change and keeps, for each
touched path, the text the file had when the turn began (`baselineByPath`) and
the text it has now (`currentByPath`); the net diff of the turn is computed from
these two maps alone.

The maps have no entry for "absent", so a path that was created and deleted
again looks like one that was never touched.  The invariant `Tracks` is what
survives this: a path is either tracked, and then both maps are right about it,
or it is in neither map, and then it has the text it had at the start.

## What is left out

`rendered_diffs`, `unified_diff` and the display roots are computed from the maps
below and never read back by the functions of this file.

## Main result

`trackDeltas_net_diff`: the invariant holds at the start (`Tracks.new`), is kept by every exact
delta that tells the truth (`Tracks.trackDeltas`), and gives the paths that changed.
-/

namespace Codex.TurnDiff

open ApplyPatch

variable {Path : Type}

structure TrackedContent where
  content : Str
  revision : ℕ
  deriving DecidableEq, Repr

/-- A path together with the environment it lives in. -/
structure TrackedPath (Path : Type) where
  environmentId : Str
  path : Path
  deriving DecidableEq, Repr

structure TurnDiffTracker (Path : Type) where
  valid : Bool
  baselineByPath : Finmap fun _ : TrackedPath Path => TrackedContent
  currentByPath : Finmap fun _ : TrackedPath Path => TrackedContent
  originByCurrentPath : Finmap fun _ : TrackedPath Path => TrackedPath Path
  nextRevision : ℕ

namespace TurnDiffTracker

def new : TurnDiffTracker Path := ⟨true, ∅, ∅, ∅, 0⟩

/-- `tracked_content`: the text under a fresh revision number. -/
def trackedContent (tracker : TurnDiffTracker Path) (content : Str) :
    TrackedContent × TurnDiffTracker Path :=
  (⟨content, tracker.nextRevision⟩, { tracker with nextRevision := tracker.nextRevision + 1 })

variable [DecidableEq Path] (tracker : TurnDiffTracker Path) (path : TrackedPath Path)

def insertBaseline (content : Str) : TurnDiffTracker Path :=
  let (tracked, tracker) := tracker.trackedContent content
  { tracker with baselineByPath := tracker.baselineByPath.insert path tracked }

def insertCurrent (content : Str) : TurnDiffTracker Path :=
  let (tracked, tracker) := tracker.trackedContent content
  { tracker with currentByPath := tracker.currentByPath.insert path tracked }

/-- Neither map has the path yet, the test the code uses for "not touched before". -/
def untracked : Bool :=
  !decide (path ∈ tracker.currentByPath) && !decide (path ∈ tracker.baselineByPath)

/-- The first touch of a path keeps the text it had, if it had any. -/
def rememberBaseline : Option Str → TurnDiffTracker Path
  | some content =>
    if tracker.untracked path then tracker.insertBaseline path content else tracker
  | none => tracker

variable (content : Str) (overwrittenContent : Option Str)

def applyAdd : TurnDiffTracker Path :=
  let tracker :=
    { tracker with originByCurrentPath := tracker.originByCurrentPath.erase path }
  (tracker.rememberBaseline path overwrittenContent).insertCurrent path content

def applyDelete : TurnDiffTracker Path :=
  let removed := tracker.currentByPath.lookup path
  let tracker := { tracker with currentByPath := tracker.currentByPath.erase path }
  let tracker :=
    if removed.isNone && !decide (path ∈ tracker.baselineByPath) then
      tracker.insertBaseline path content
    else tracker
  { tracker with originByCurrentPath := tracker.originByCurrentPath.erase path }

/-- A moved file keeps the path it had at the start as its origin. -/
def applyUpdate (sourcePath : TrackedPath Path) (movePath : Option (TrackedPath Path))
    (oldContent : Str) (overwrittenMoveContent : Option Str) (newContent : Str) :
    TurnDiffTracker Path :=
  let tracker := tracker.rememberBaseline sourcePath (some oldContent)
  match movePath with
  | some destPath =>
    let tracker := tracker.rememberBaseline destPath overwrittenMoveContent
    let origin := (tracker.originByCurrentPath.lookup sourcePath).getD sourcePath
    let tracker :=
      { tracker with
        originByCurrentPath := tracker.originByCurrentPath.erase sourcePath
        currentByPath := tracker.currentByPath.erase sourcePath }
    let tracker := tracker.insertCurrent destPath newContent
    let origins := tracker.originByCurrentPath.erase destPath
    { tracker with
      originByCurrentPath := if destPath = origin then origins else origins.insert destPath origin }
  | none => tracker.insertCurrent sourcePath newContent

def applyChange (environmentId : Str) (applied : AppliedPatchChange Path) : TurnDiffTracker Path :=
  let sourcePath : TrackedPath Path := ⟨environmentId, applied.path⟩
  match applied.change with
  | .add content overwrittenContent => tracker.applyAdd sourcePath content overwrittenContent
  | .delete content => tracker.applyDelete sourcePath content
  | .update movePath oldContent overwrittenMoveContent newContent =>
    tracker.applyUpdate sourcePath (movePath.map fun path => ⟨environmentId, path⟩) oldContent
      overwrittenMoveContent newContent

def invalidate : TurnDiffTracker Path :=
  { tracker with valid := false }

def trackDelta (environmentId : Str) (delta : AppliedPatchDelta Path) : TurnDiffTracker Path :=
  if !tracker.valid then tracker
  else if !delta.exact then tracker.invalidate
  else delta.changes.foldl (fun tracker applied => tracker.applyChange environmentId applied) tracker

/-- The tracker after a sequence of deltas, each from its own environment. -/
def trackDeltas (deltas : List (Str × AppliedPatchDelta Path)) : TurnDiffTracker Path :=
  deltas.foldl (fun tracker delta => tracker.trackDelta delta.1 delta.2) tracker

/-! ## What the two maps say about a path -/

/-- The text of `path` when the turn began, as far as the tracker knows. -/
def baseline : Option Str :=
  (tracker.baselineByPath.lookup path).map TrackedContent.content

/-- The text of `path` now, as far as the tracker knows. -/
def current : Option Str :=
  (tracker.currentByPath.lookup path).map TrackedContent.content

theorem mem_baselineByPath_iff : path ∈ tracker.baselineByPath ↔ tracker.baseline path ≠ none := by
  simp [baseline, Finmap.lookup_eq_none]

theorem mem_currentByPath_iff : path ∈ tracker.currentByPath ↔ tracker.current path ≠ none := by
  simp [current, Finmap.lookup_eq_none]

theorem untracked_iff : tracker.untracked path = true ↔
      tracker.baseline path = none ∧ tracker.current path = none := by
  simp [untracked, mem_baselineByPath_iff, mem_currentByPath_iff, and_comm]

@[simp] theorem baseline_insertBaseline (other : TrackedPath Path) (content : Str) :
    (tracker.insertBaseline path content).baseline other =
      if other = path then some content else tracker.baseline other := by
  by_cases h : other = path
  · subst h; simp [baseline, insertBaseline, trackedContent]
  · simp [baseline, insertBaseline, trackedContent, h]

@[simp] theorem current_insertBaseline :
    (tracker.insertBaseline path content).current = tracker.current := rfl

@[simp] theorem baseline_insertCurrent :
    (tracker.insertCurrent path content).baseline = tracker.baseline := rfl

@[simp] theorem current_insertCurrent (other : TrackedPath Path) (content : Str) :
    (tracker.insertCurrent path content).current other =
      if other = path then some content else tracker.current other := by
  by_cases h : other = path
  · subst h; simp [current, insertCurrent, trackedContent]
  · simp [current, insertCurrent, trackedContent, h]

@[simp] theorem current_rememberBaseline (content : Option Str) :
    (tracker.rememberBaseline path content).current = tracker.current := by
  cases content with
  | none => rfl
  | some content => simp only [rememberBaseline]; split_ifs <;> rfl

@[simp] theorem baseline_rememberBaseline (other : TrackedPath Path) (content : Option Str) :
    (tracker.rememberBaseline path content).baseline other =
      if other = path ∧ tracker.baseline path = none ∧ tracker.current path = none then content
      else tracker.baseline other := by
  cases content with
  | none =>
    split_ifs with h
    · obtain ⟨rfl, hbaseline, -⟩ := h
      exact hbaseline
    · rfl
  | some content =>
    simp only [rememberBaseline, untracked_iff]
    split_ifs with huntracked h h
    · simp [h.1]
    · have hne : other ≠ path := fun heq => h ⟨heq, huntracked⟩
      simp [hne]
    · exact absurd h.2 huntracked
    · rfl

/-- The operation touches one path: it remembers the old text if it is the first to do so, and
knows the new one. -/
structure Touches (tracker' : TurnDiffTracker Path) (path : TrackedPath Path)
    (old new : Option Str) : Prop where
  baseline_eq : ∀ other, tracker'.baseline other =
    if other = path ∧ tracker.baseline path = none ∧ tracker.current path = none then old
    else tracker.baseline other
  current_eq : ∀ other, tracker'.current other = if other = path then new else tracker.current other

theorem touches_applyAdd :
    tracker.Touches (tracker.applyAdd path content overwrittenContent) path overwrittenContent
      (some content) := by
  refine ⟨fun other => ?_, fun other => ?_⟩
  · simp only [applyAdd, baseline_insertCurrent, baseline_rememberBaseline]
    rfl
  · simp only [applyAdd, current_insertCurrent, current_rememberBaseline]
    rfl

theorem touches_applyDelete :
    tracker.Touches (tracker.applyDelete path content) path (some content) none := by
  have htest : ((tracker.currentByPath.lookup path).isNone &&
      !decide (path ∈ tracker.baselineByPath)) = tracker.untracked path := by
    have hmem := Finmap.lookup_isSome (a := path) (s := tracker.currentByPath)
    simp only [untracked, ← hmem]
    cases tracker.currentByPath.lookup path <;> rfl
  refine ⟨fun other => ?_, fun other => ?_⟩
  · have hview : (tracker.applyDelete path content).baseline other =
        if tracker.untracked path = true then (tracker.insertBaseline path content).baseline other
        else tracker.baseline other := by
      simp only [applyDelete, htest]
      split_ifs <;> rfl
    rw [hview]
    simp only [untracked_iff]
    split_ifs <;> simp_all
  · have hview : (tracker.applyDelete path content).current other =
        ((tracker.currentByPath.erase path).lookup other).map TrackedContent.content := by
      simp only [applyDelete]
      split_ifs <;> rfl
    rw [hview]
    split_ifs with h
    · subst h; simp
    · rw [Finmap.lookup_erase_ne h]; rfl

theorem touches_applyUpdate (sourcePath : TrackedPath Path) (oldContent : Str)
    (overwrittenMoveContent : Option Str) (newContent : Str) :
    tracker.Touches
      (tracker.applyUpdate sourcePath none oldContent overwrittenMoveContent newContent) sourcePath
      (some oldContent) (some newContent) := by
  refine ⟨fun other => ?_, fun other => ?_⟩
  · simp only [applyUpdate, baseline_insertCurrent, baseline_rememberBaseline]
  · simp only [applyUpdate, current_insertCurrent, current_rememberBaseline]

variable (sourcePath destPath other : TrackedPath Path) (oldContent : Str)
  (overwrittenMoveContent : Option Str)

/-- A move remembers the source first.  When it is its own destination the second
look finds it tracked, so the overwritten text is not recorded over the first. -/
theorem baseline_applyUpdate_some (newContent : Str) :
    (tracker.applyUpdate sourcePath (some destPath) oldContent overwrittenMoveContent
        newContent).baseline other =
      if tracker.baseline other = none ∧ tracker.current other = none then
        if other = sourcePath then some oldContent
        else if other = destPath then overwrittenMoveContent else none
      else tracker.baseline other := by
  change ((tracker.rememberBaseline sourcePath (some oldContent)).rememberBaseline destPath
    overwrittenMoveContent).baseline other = _
  simp only [baseline_rememberBaseline]
  by_cases hsource : other = sourcePath <;> by_cases hdest : other = destPath <;>
    split_ifs <;> simp_all

theorem current_applyUpdate_some (newContent : Str) :
    (tracker.applyUpdate sourcePath (some destPath) oldContent overwrittenMoveContent
        newContent).current other =
      if other = destPath then some newContent
      else if other = sourcePath then none else tracker.current other := by
  have hremembered : ((tracker.rememberBaseline sourcePath (some oldContent)).rememberBaseline
      destPath overwrittenMoveContent).current = tracker.current := by
    rw [current_rememberBaseline, current_rememberBaseline]
  refine (current_insertCurrent _ destPath other newContent).trans ?_
  rw [current]
  split_ifs with hdest hsource
  · rfl
  · subst hsource; simp
  · rw [Finmap.lookup_erase_ne hsource]
    exact congrFun hremembered other

@[simp] theorem valid_rememberBaseline (tracker : TurnDiffTracker Path) (path : TrackedPath Path)
    (content : Option Str) : (tracker.rememberBaseline path content).valid = tracker.valid := by
  cases content with
  | none => rfl
  | some content => simp only [rememberBaseline]; split_ifs <;> rfl

/-- Only an inexact delta invalidates the tracker. -/
theorem valid_applyChange (tracker : TurnDiffTracker Path) (environmentId : Str)
    (applied : AppliedPatchChange Path) :
    (tracker.applyChange environmentId applied).valid = tracker.valid := by
  obtain ⟨path, change⟩ := applied
  cases change with
  | add content overwrittenContent =>
    exact valid_rememberBaseline _ _ overwrittenContent
  | delete content =>
    simp only [applyChange, applyDelete]
    split_ifs <;> rfl
  | update movePath oldContent overwrittenMoveContent newContent =>
    cases movePath with
    | none => exact valid_rememberBaseline tracker _ (some oldContent)
    | some dest =>
      exact (valid_rememberBaseline _ _ overwrittenMoveContent).trans
        (valid_rememberBaseline tracker _ (some oldContent))

end TurnDiffTracker

/-! ## The tracker follows a truthful history -/

/-- A change of one environment, as a change of the filesystem of all of them. -/
def inEnvironment (environmentId : Str) (applied : AppliedPatchChange Path) :
    AppliedPatchChange (TrackedPath Path) where
  path := ⟨environmentId, applied.path⟩
  change :=
    match applied.change with
    | .add content overwrittenContent => .add content overwrittenContent
    | .delete content => .delete content
    | .update movePath oldContent overwrittenMoveContent newContent =>
      .update (movePath.map fun path => ⟨environmentId, path⟩) oldContent overwrittenMoveContent
        newContent

variable [DecidableEq Path]

/-- `History start deltas now`: a sequence of exact deltas, each from its own
environment, that truthfully logs what happened between `start` and `now`. -/
inductive History :
    FileMap (TrackedPath Path) → List (Str × AppliedPatchDelta Path) →
      FileMap (TrackedPath Path) → Prop
  | nil (files : FileMap (TrackedPath Path)) : History files [] files
  | cons {start later now : FileMap (TrackedPath Path)} {environmentId : Str}
      {delta : AppliedPatchDelta Path} {rest : List (Str × AppliedPatchDelta Path)}
      (exact : delta.exact = true)
      (log : TruthfulLog start (delta.changes.map (inEnvironment environmentId)) later)
      (history : History later rest now) :
      History start ((environmentId, delta) :: rest) now

/-- The tracker's invariant.  A path is tracked and both maps are right about it,
or it is in neither map and has the text it had at the start. -/
def Tracks (start now : FileMap (TrackedPath Path)) (tracker : TurnDiffTracker Path) : Prop :=
  ∀ path, (tracker.baseline path = start.lookup path ∧ tracker.current path = now.lookup path) ∨
    (tracker.baseline path = none ∧ tracker.current path = none ∧
      start.lookup path = now.lookup path)

namespace Tracks

variable {start now : FileMap (TrackedPath Path)} {tracker : TurnDiffTracker Path}

theorem new (start : FileMap (TrackedPath Path)) :
    Tracks start start (TurnDiffTracker.new : TurnDiffTracker Path) := by
  intro path
  exact .inr ⟨rfl, rfl, rfl⟩

variable (htracks : Tracks start now tracker)
include htracks

theorem touches {path : TrackedPath Path} {old new : Option Str} {tracker' : TurnDiffTracker Path}
    {now' : FileMap (TrackedPath Path)} (htrue : now.lookup path = old)
    (h : tracker.Touches tracker' path old new)
    (hnow : ∀ other, now'.lookup other = if other = path then new else now.lookup other) :
    Tracks start now' tracker' := by
  intro other
  rw [h.baseline_eq, h.current_eq, hnow]
  by_cases hpath : other = path
  · subst hpath
    refine .inl ⟨?_, by simp⟩
    rcases htracks other with ⟨hbaseline, hcurrent⟩ | ⟨hbaseline, hcurrent, hsame⟩
    · rw [hbaseline, hcurrent, htrue]
      split_ifs with hnone
      · rw [hnone.2.1, hnone.2.2]
      · rfl
    · simp [hbaseline, hcurrent, hsame, htrue]
  · simpa [hpath] using htracks other

theorem applyUpdate_some {sourcePath destPath : TrackedPath Path} {oldContent : Str}
    {overwrittenMoveContent : Option Str} (htrueSource : now.lookup sourcePath = some oldContent)
    (htrueDest : now.lookup destPath = overwrittenMoveContent) (newContent : Str) :
    Tracks start ((now.erase sourcePath).insert destPath newContent)
      (tracker.applyUpdate sourcePath (some destPath) oldContent overwrittenMoveContent
        newContent) := by
  intro other
  rw [TurnDiffTracker.baseline_applyUpdate_some, TurnDiffTracker.current_applyUpdate_some,
    lookup_insert_ite, lookup_erase_ite]
  by_cases htouched : other = sourcePath ∨ other = destPath
  · -- the text a touched path had just before, read off the log
    have hnow : now.lookup other =
        if other = sourcePath then some oldContent
        else if other = destPath then overwrittenMoveContent else none := by
      split_ifs with hsource hdest
      · rw [hsource, htrueSource]
      · rw [hdest, htrueDest]
      · exact absurd htouched (by simp [hsource, hdest])
    refine Or.inl ⟨?_, by rcases htouched with h | h <;> simp [h]⟩
    rcases htracks other with ⟨hbaseline, hcurrent⟩ | ⟨hbaseline, hcurrent, hsame⟩
    · rw [hbaseline, hcurrent, ← hnow]
      split_ifs with hnone
      · rw [hnone.1, hnone.2]
      · rfl
    · rw [if_pos ⟨hbaseline, hcurrent⟩, ← hnow, hsame]
  · obtain ⟨hsource, hdest⟩ := not_or.mp htouched
    simp only [hsource, hdest, if_false]
    rcases htracks other with ⟨hbaseline, hcurrent⟩ | ⟨hbaseline, hcurrent, hsame⟩
    · refine Or.inl ⟨?_, hcurrent⟩
      split_ifs with hnone
      · rw [← hbaseline, hnone.1]
      · exact hbaseline
    · exact Or.inr ⟨by rw [if_pos ⟨hbaseline, hcurrent⟩], hcurrent, hsame⟩

/-- One committed change. -/
theorem applyChange {environmentId : Str} {applied : AppliedPatchChange Path}
    (htrue : (inEnvironment environmentId applied).Truthful now) :
    Tracks start ((inEnvironment environmentId applied).replay now)
      (tracker.applyChange environmentId applied) := by
  obtain ⟨path, change⟩ := applied
  cases change with
  | add content overwrittenContent =>
    exact htracks.touches htrue (tracker.touches_applyAdd ..) (lookup_insert_ite now _ · content)
  | delete content =>
    exact htracks.touches htrue (tracker.touches_applyDelete ..) (lookup_erase_ite now _)
  | update movePath oldContent overwrittenMoveContent newContent =>
    cases movePath with
    | none =>
      exact htracks.touches htrue (tracker.touches_applyUpdate _ _ overwrittenMoveContent _)
        (lookup_insert_ite now _ · newContent)
    | some dest => exact htracks.applyUpdate_some htrue.1 htrue.2 newContent

/-- The changes of one delta, in order. -/
theorem applyChanges {environmentId : Str} {changes : List (AppliedPatchChange Path)}
    {later : FileMap (TrackedPath Path)}
    (hlog : TruthfulLog now (changes.map (inEnvironment environmentId)) later) :
    let reached := changes.foldl (·.applyChange environmentId ·) tracker
    reached.valid = tracker.valid ∧ Tracks start later reached := by
  induction changes generalizing now tracker with
  | nil =>
    cases hlog
    exact ⟨rfl, htracks⟩
  | cons applied rest ih =>
    cases hlog with
    | cons htrue hrest =>
      obtain ⟨hvalid, hlater⟩ := ih (htracks.applyChange htrue) hrest
      exact ⟨hvalid.trans (tracker.valid_applyChange environmentId applied), hlater⟩

end Tracks

/-! ## Whole turns -/

/-- A whole history, from any state of the tracker that is right so far. -/
theorem Tracks.trackDeltas {start files now : FileMap (TrackedPath Path)}
    {tracker : TurnDiffTracker Path} {deltas : List (Str × AppliedPatchDelta Path)}
    (htracks : Tracks start files tracker) (hvalid : tracker.valid = true)
    (hhistory : History files deltas now) :
    (tracker.trackDeltas deltas).valid = true ∧ Tracks start now (tracker.trackDeltas deltas) := by
  induction hhistory generalizing tracker with
  | nil => exact ⟨hvalid, htracks⟩
  | @cons _ _ _ environmentId delta rest hexact hlog _ ih =>
    have hstep : tracker.trackDelta environmentId delta =
        delta.changes.foldl (·.applyChange environmentId ·) tracker := by
      simp [TurnDiffTracker.trackDelta, hvalid, hexact]
    change ((tracker.trackDelta environmentId delta).trackDeltas rest).valid = true ∧
      Tracks start _ ((tracker.trackDelta environmentId delta).trackDeltas rest)
    apply ih
    · rw [hstep]
      exact (htracks.applyChanges hlog).2
    · rw [hstep]
      exact (htracks.applyChanges hlog).1.trans hvalid

/-- After any truthful history of exact deltas the tracker is still valid.  It is
right about every path that changed and about every path it has, so that the
paths it would show as changed are those that did change. -/
theorem trackDeltas_net_diff {start now : FileMap (TrackedPath Path)}
    {deltas : List (Str × AppliedPatchDelta Path)} (hhistory : History start deltas now) :
    (TurnDiffTracker.new.trackDeltas deltas).valid = true ∧
    ∀ path,
      (start.lookup path ≠ now.lookup path ∨
          path ∈ (TurnDiffTracker.new.trackDeltas deltas).baselineByPath ∨
          path ∈ (TurnDiffTracker.new.trackDeltas deltas).currentByPath →
        (TurnDiffTracker.new.trackDeltas deltas).baseline path = start.lookup path ∧
        (TurnDiffTracker.new.trackDeltas deltas).current path = now.lookup path) ∧
      ((TurnDiffTracker.new.trackDeltas deltas).baseline path ≠
          (TurnDiffTracker.new.trackDeltas deltas).current path ↔
        start.lookup path ≠ now.lookup path) := by
  obtain ⟨hvalid, htracks⟩ := (Tracks.new start).trackDeltas rfl hhistory
  refine ⟨hvalid, fun path => ?_⟩
  rcases htracks path with ⟨hbaseline, hcurrent⟩ | ⟨hbaseline, hcurrent, hsame⟩
  · exact ⟨fun _ => ⟨hbaseline, hcurrent⟩, by rw [hbaseline, hcurrent]⟩
  · refine ⟨fun htouched => ?_, by simp [hbaseline, hcurrent, hsame]⟩
    -- an untouched path did not change and is in neither map
    rcases htouched with hne | hmem | hmem
    · exact absurd hsame hne
    · rw [TurnDiffTracker.mem_baselineByPath_iff, hbaseline] at hmem
      exact absurd hmem (by simp)
    · rw [TurnDiffTracker.mem_currentByPath_iff, hcurrent] at hmem
      exact absurd hmem (by simp)

/-- A file is moved over another one and its old path is filled again. -/
theorem trackDeltas_net_diff_move_over :
    let a : TrackedPath ℕ := ⟨[], 0⟩
    let b : TrackedPath ℕ := ⟨[], 1⟩
    let start : FileMap (TrackedPath ℕ) := Finmap.insert b ['b'] (Finmap.singleton a ['a'])
    let now : FileMap (TrackedPath ℕ) :=
      Finmap.insert a ['d'] (Finmap.insert b ['c'] (Finmap.erase a start))
    let deltas : List (Str × AppliedPatchDelta ℕ) :=
      [([], ⟨[⟨0, .update (some 1) ['a'] (some ['b']) ['c']⟩], true⟩),
        ([], ⟨[⟨0, .add ['d'] none⟩], true⟩)]
    History start deltas now ∧ (TurnDiffTracker.new.trackDeltas deltas).baseline b = some ['b'] ∧
      (TurnDiffTracker.new.trackDeltas deltas).current b = some ['c'] := by
  intro a b start now deltas
  have hhistory : History start deltas now :=
    .cons rfl (.cons (by decide) (.nil _)) (.cons rfl (.cons (by decide) (.nil _)) (.nil _))
  exact ⟨hhistory, ((trackDeltas_net_diff hhistory).2 b).1 (.inl (by decide))⟩

end Codex.TurnDiff
