import Codex.Lib.Text
import Mathlib.Data.Finmap

/-!
# Committed changes and their replay

`apply_patch` reports what it did to the filesystem as an `AppliedPatchDelta`: a
list of committed changes, in the order they were made, and a flag saying that
the list is exact.  This file holds these types and the meaning of such a list,
`replay`: the filesystem one gets by carrying the changes out in order.

A filesystem is a finite map from resolved paths to text.  `Path` stands for the
resolved `PathUri`s up to their own equality; nothing here looks inside a path.
-/

namespace Codex.ApplyPatch

variable {Path : Type}

/-- A filesystem: the text of every file that exists. -/
abbrev FileMap (Path : Type) := Finmap fun _ : Path => Str

inductive AppliedPatchFileChange (Path : Type) where
  | add (content : Str) (overwrittenContent : Option Str)
  | delete (content : Str)
  | update (movePath : Option Path) (oldContent : Str)
      (overwrittenMoveContent : Option Str) (newContent : Str)
  deriving DecidableEq, Repr

/-- A committed file change. -/
structure AppliedPatchChange (Path : Type) where
  path : Path
  change : AppliedPatchFileChange Path
  deriving DecidableEq, Repr

/-- The textual changes that were committed while applying a patch.  `exact` is
dropped as soon as the list may say less than what happened. -/
structure AppliedPatchDelta (Path : Type) where
  changes : List (AppliedPatchChange Path)
  exact : Bool
  deriving DecidableEq, Repr

def AppliedPatchDelta.empty : AppliedPatchDelta Path := ⟨[], true⟩

variable [DecidableEq Path]

variable (files : FileMap Path)

theorem lookup_insert_ite (path other : Path) (content : Str) :
    (files.insert path content).lookup other =
      if other = path then some content else files.lookup other := by
  split_ifs with h
  · rw [h, Finmap.lookup_insert]
  · rw [Finmap.lookup_insert_of_ne _ h]

theorem lookup_erase_ite (path other : Path) :
    (files.erase path).lookup other = if other = path then none else files.lookup other := by
  split_ifs with h
  · rw [h, Finmap.lookup_erase]
  · rw [Finmap.lookup_erase_ne h]

theorem insert_erase_comm {path other : Path} (h : other ≠ path) (files : FileMap Path)
    (content : Str) :
    (files.erase path).insert other content = (files.insert other content).erase path := by
  refine Finmap.ext_lookup fun p => ?_
  simp only [lookup_insert_ite, lookup_erase_ite]
  split_ifs with h₁ h₂
  · exact absurd (h₁.symm.trans h₂) h
  all_goals rfl

/-- The filesystem after one change.  A move takes the source away before it
sets the destination. -/
def AppliedPatchChange.replay (applied : AppliedPatchChange Path) : FileMap Path :=
  match applied.change with
  | .add content _ => files.insert applied.path content
  | .delete _ => files.erase applied.path
  | .update none _ _ newContent => files.insert applied.path newContent
  | .update (some dest) _ _ newContent => (files.erase applied.path).insert dest newContent

/-- The filesystem after a list of changes, carried out in order. -/
def replay (changes : List (AppliedPatchChange Path)) : FileMap Path :=
  changes.foldl AppliedPatchChange.replay files

@[simp] theorem replay_nil : replay files [] = files := rfl

@[simp] theorem replay_append (changes later : List (AppliedPatchChange Path)) :
    replay files (changes ++ later) = replay (replay files changes) later :=
  List.foldl_append

/-! ## Truthful logs -/

/-- The contents a change quotes are those of the filesystem it is made on:
`none` for a file that is absent. -/
def AppliedPatchChange.Truthful (applied : AppliedPatchChange Path) : Prop :=
  match applied.change with
  | .add _ overwrittenContent => files.lookup applied.path = overwrittenContent
  | .delete content => files.lookup applied.path = some content
  | .update none oldContent _ _ => files.lookup applied.path = some oldContent
  | .update (some dest) oldContent overwrittenMoveContent _ =>
    files.lookup applied.path = some oldContent ∧ files.lookup dest = overwrittenMoveContent

instance (files : FileMap Path) (applied : AppliedPatchChange Path) :
    Decidable (applied.Truthful files) :=
  match applied with
    | ⟨path, .add _ overwrittenContent⟩ =>
      inferInstanceAs (Decidable (files.lookup path = overwrittenContent))
    | ⟨path, .delete content⟩ => inferInstanceAs (Decidable (files.lookup path = some content))
    | ⟨path, .update none oldContent _ _⟩ =>
      inferInstanceAs (Decidable (files.lookup path = some oldContent))
    | ⟨path, .update (some dest) oldContent overwrittenMoveContent _⟩ =>
      inferInstanceAs (Decidable (files.lookup path = some oldContent ∧
        files.lookup dest = overwrittenMoveContent))

/-- `TruthfulLog files changes files'`: the changes are truthful one after the
other and lead from `files` to `files'`. -/
inductive TruthfulLog : FileMap Path → List (AppliedPatchChange Path) → FileMap Path → Prop
  | nil (files : FileMap Path) : TruthfulLog files [] files
  | cons {files files' : FileMap Path} {applied : AppliedPatchChange Path}
      {rest : List (AppliedPatchChange Path)} (truthful : applied.Truthful files)
      (log : TruthfulLog (applied.replay files) rest files') :
      TruthfulLog files (applied :: rest) files'

end Codex.ApplyPatch
