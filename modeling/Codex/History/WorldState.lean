import Codex.Lib.MergePatch
import Codex.Lib.Run
import Codex.Lib.Text
import Mathlib.Data.Char
import Mathlib.Data.List.Lex

/-!
# World state

What the model has been told about its surroundings, as one JSON value per section.  A session
keeps the last one it has shown, its baseline, and writes to the rollout what brings a reader
from the baseline before to the new one: a patch, or the whole if there was none.  The baseline
can be lost without a record when the history loses its first item; the next record is then a
whole one.  That is why reading the records back gives the baseline of the session whenever the
session has one (`worldState_replay`).

How a section renders itself is not modelled: an update is given what each section returned.
-/

namespace Codex.History

open Json

variable {σ : Type*}

/-- A JSON object with its keys in order. -/
structure JsonObject (σ : Type*) where
  members : List (Str × Json Str σ)
  canonical : Canonical (.object members)

/-- A JSON value whose objects have their keys in order. -/
structure JsonValue (σ : Type*) where
  value : Json Str σ
  canonical : Canonical value

def JsonValue.removeNullObjectFields (value : JsonValue σ) : JsonValue σ :=
  ⟨removeNullMembers value.value, (canonical_removeNullMembers value.canonical).1⟩

structure WorldStateSnapshot (σ : Type*) where
  sections : JsonObject σ

/-- What a section returned: its snapshot, or nothing if it skipped it. -/
structure RenderedSection (σ : Type*) where
  id : Str
  snapshot : Option (JsonValue σ)

structure WorldStateItem (σ : Type*) where
  full : Bool
  state : JsonObject σ

/-- The records of a rollout that matter to the world state. -/
inductive WorldStateRecord (σ : Type*) where
  | worldState (item : WorldStateItem σ)
  | compacted

namespace WorldStateSnapshot

protected def default : WorldStateSnapshot σ := ⟨⟨[], .object .nil (by simp)⟩⟩

variable (snapshot : WorldStateSnapshot σ)

def insert (id : Str) (value : JsonValue σ) : WorldStateSnapshot σ :=
  ⟨⟨SortedMap.insertEntry snapshot.sections.members id value.value,
    snapshot.sections.canonical.insertEntry value.canonical⟩⟩

def get (id : Str) : Option (JsonValue σ) :=
  match h : lookup snapshot.sections.members id with
  | some value => some ⟨value, snapshot.sections.canonical.of_lookup h⟩
  | none => none

section

variable [DecidableEq σ]

def mergePatchFrom (current previous : WorldStateSnapshot σ) : Option (JsonObject σ) :=
  let patch := patchMembers previous.sections.members current.sections.members
    (removals previous.sections.members current.sections.members)
  if patch = [] then none
  else some ⟨patch, canonical_patchMembers_removals current.sections.canonical⟩

end

def applyMergePatch (patch : JsonObject σ) : WorldStateSnapshot σ where
  sections :=
    ⟨applyMembers snapshot.sections.members patch.members,
      patch.canonical.applyPatch snapshot.sections.canonical⟩

/-- No member of an object outside of arrays is `null`, nor is a section. -/
def NullFree : Prop :=
  Json.NullFree (.object snapshot.sections.members)

/-- `render_with`: a section that was skipped keeps what is stored, one that comes out as `null`
is left out. -/
def renderWith (stored : Option (WorldStateSnapshot σ)) (sections : List (RenderedSection σ)) :
    WorldStateSnapshot σ :=
  sections.foldl (fun snapshot rendered =>
      match (rendered.snapshot.map JsonValue.removeNullObjectFields).or
          (stored.bind fun snapshot => snapshot.get rendered.id) with
      | some value => if value.value.isNull then snapshot else snapshot.insert rendered.id value
      | none => snapshot)
    .default

end WorldStateSnapshot

namespace WorldStateItem

def ofFull (snapshot : WorldStateSnapshot σ) : WorldStateItem σ := ⟨true, snapshot.sections⟩

def ofPatch (patch : JsonObject σ) : WorldStateItem σ := ⟨false, patch⟩

end WorldStateItem

/-! ## The session -/

section Session

variable [DecidableEq σ]

/-- The record that brings a reader from the baseline to the snapshot. -/
def worldStateItem (baseline : Option (WorldStateSnapshot σ)) (snapshot : WorldStateSnapshot σ) :
    Option (WorldStateItem σ) :=
  match baseline with
  | none => some (.ofFull snapshot)
  | some previous => (snapshot.mergePatchFrom previous).map .ofPatch

/-- What a session does that touches its baseline. -/
inductive Operation (σ : Type*) where
  /-- The state of a step or of a turn, against the baseline. -/
  | update (sections : List (RenderedSection σ))
  /-- The state of a turn that starts with a full context. -/
  | initialContext (sections : List (RenderedSection σ))
  /-- A compaction of all of the history, or of the part before the last items, which have
  already been told about the baseline. -/
  | compaction (ofPrefix : Bool) (sections : List (RenderedSection σ))
  | removeFirstItem (hadItems : Bool)

/-- The baseline after an operation, and the records it writes. -/
def Operation.perform (baseline : Option (WorldStateSnapshot σ)) :
    Operation σ → Option (WorldStateSnapshot σ) × List (WorldStateRecord σ)
  | .update sections =>
    let snapshot := WorldStateSnapshot.renderWith baseline sections
    (some snapshot, ((worldStateItem baseline snapshot).map .worldState).toList)
  | .initialContext sections =>
    let snapshot := WorldStateSnapshot.renderWith none sections
    (some snapshot, [.worldState (.ofFull snapshot)])
  | .compaction ofPrefix sections =>
    let rendered := WorldStateSnapshot.renderWith none sections
    let snapshot := if ofPrefix then baseline.getD rendered else rendered
    (some snapshot, [.compacted, .worldState (.ofFull snapshot)])
  | .removeFirstItem hadItems => (if hadItems then none else baseline, [])

end Session

/-! ## Reading the records back -/

def replayRecord (baseline : Option (WorldStateSnapshot σ)) :
    WorldStateRecord σ → Option (WorldStateSnapshot σ)
  | .compacted => none
  | .worldState item =>
    if item.full then some ⟨item.state⟩
    else baseline.map fun snapshot => snapshot.applyMergePatch item.state

def replay (records : List (WorldStateRecord σ)) : Option (WorldStateSnapshot σ) :=
  records.foldl replayRecord none

theorem replay_append (records more : List (WorldStateRecord σ)) :
    replay (records ++ more) = more.foldl replayRecord (replay records) := List.foldl_append

/-! ## Snapshots have no `null` members -/

namespace WorldStateSnapshot

variable {snapshot previous current : WorldStateSnapshot σ}

@[ext] theorem ext (h : previous.sections.members = current.sections.members) :
    previous = current := by
  obtain ⟨⟨members, _⟩⟩ := previous
  cases h
  rfl

theorem nullFree_default : (WorldStateSnapshot.default : WorldStateSnapshot σ).NullFree :=
  .object (by simp [WorldStateSnapshot.default]) (by simp [WorldStateSnapshot.default])

theorem NullFree.insert (h : snapshot.NullFree) {value : JsonValue σ} (hne : value.value ≠ .null)
    (hvalue : Json.NullFree value.value) (id : Str) : (snapshot.insert id value).NullFree := by
  have hmem : ∀ member ∈ (snapshot.insert id value).sections.members,
      member = (id, value.value) ∨ member ∈ snapshot.sections.members := by
    intro member hmember
    exact ((SortedMap.mem_insertEntry snapshot.sections.canonical.sorted).mp hmember).imp_right
      And.left
  cases h with
  | object hold hmembers =>
    refine .object (fun member hmember => ?_) fun member hmember => ?_
    · rcases hmem member hmember with rfl | hin
      · exact hne
      · exact hold member hin
    · rcases hmem member hmember with rfl | hin
      · exact hvalue
      · exact hmembers member hin

theorem NullFree.get (h : snapshot.NullFree) {id : Str} {value : JsonValue σ}
    (hget : snapshot.get id = some value) : Json.NullFree value.value := by
  unfold WorldStateSnapshot.get at hget
  split at hget
  · next found hlookup =>
      cases hget
      cases h with
      | object _ hmembers => exact hmembers _ (mem_of_lookup hlookup)
  · cases hget

/-- Whatever the sections return. -/
theorem nullFree_renderWith {stored : Option (WorldStateSnapshot σ)}
    (hstored : ∀ snapshot ∈ stored, snapshot.NullFree) (sections : List (RenderedSection σ)) :
    (renderWith stored sections).NullFree := by
  refine List.foldlRecOn sections _ nullFree_default fun snapshot hsnapshot rendered _ => ?_
  split
  · next value hvalue =>
      have hfree : Json.NullFree value.value := by
        rcases Option.or_eq_some_iff.mp hvalue with hrendered | ⟨-, hget⟩
        · obtain ⟨raw, -, rfl⟩ := Option.map_eq_some_iff.mp hrendered
          exact (canonical_removeNullMembers raw.canonical).2
        · obtain ⟨before, hbefore, hget⟩ := Option.bind_eq_some_iff.mp hget
          exact (hstored before hbefore).get hget
      split_ifs with hnull
      · exact hsnapshot
      · exact hsnapshot.insert (fun h => hnull (isNull_iff.mpr h)) hfree rendered.id
  · exact hsnapshot

/-! ## Patches between snapshots -/

variable [DecidableEq σ]

theorem mergePatchFrom_eq_none_iff : current.mergePatchFrom previous = none ↔ previous = current := by
  unfold mergePatchFrom
  rw [WorldStateSnapshot.ext_iff, ← patchMembers_eq_nil_iff previous.sections.canonical.sorted
    current.sections.canonical.sorted]
  simp

theorem applyMergePatch_of_mergePatchFrom {patch : JsonObject σ} (hcurrent : current.NullFree)
    (h : current.mergePatchFrom previous = some patch) :
    previous.applyMergePatch patch = current := by
  simp only [mergePatchFrom] at h
  split_ifs at h
  cases h
  apply ext
  refine applyMembers_patchMembers previous.sections.canonical current.sections.canonical hcurrent ?_
  have hcanonical := current.sections.canonical
  cases hcurrent with
  | object _ hfree =>
    cases hcanonical with
    | object _ hmembers =>
      exact fun member hmember _ _ hold hcreate =>
        applyPatch_createPatch (hfree member hmember) hold (hmembers member hmember) hcreate

end WorldStateSnapshot

/-! ## The records follow the baseline -/

section Follow

variable [DecidableEq σ] {baseline : Option (WorldStateSnapshot σ)}
  {records : List (WorldStateRecord σ)}

/-- Where there is a baseline, it has no `null` members and the records lead to it. -/
def Follows (baseline : Option (WorldStateSnapshot σ)) (records : List (WorldStateRecord σ)) :
    Prop :=
  ∀ snapshot ∈ baseline, snapshot.NullFree ∧ replay records = some snapshot

open WorldStateSnapshot

theorem replay_worldStateItem {snapshot : WorldStateSnapshot σ} (h : Follows baseline records)
    (hsnapshot : snapshot.NullFree) :
    replay (records ++ ((worldStateItem baseline snapshot).map .worldState).toList) =
      some snapshot := by
  rw [replay_append]
  cases baseline with
  | none => rfl
  | some previous =>
    obtain ⟨-, hreplay⟩ := h previous rfl
    rw [hreplay]
    cases hpatch : snapshot.mergePatchFrom previous with
    | none =>
      obtain rfl := mergePatchFrom_eq_none_iff.mp hpatch
      simp [worldStateItem, hpatch]
    | some patch =>
      have happly := applyMergePatch_of_mergePatchFrom hsnapshot hpatch
      simp [worldStateItem, hpatch, replayRecord, WorldStateItem.ofPatch, happly]

theorem Follows.perform (h : Follows baseline records) (operation : Operation σ) :
    Follows (operation.perform baseline).1 (records ++ (operation.perform baseline).2) := by
  cases operation with
  | update sections =>
    rintro snapshot ⟨⟩
    have hfree := nullFree_renderWith (fun s hs => (h s hs).1) sections
    exact ⟨hfree, replay_worldStateItem h hfree⟩
  | initialContext sections =>
    rintro snapshot ⟨⟩
    refine ⟨nullFree_renderWith (by simp) sections, ?_⟩
    rw [replay_append]
    rfl
  | compaction ofPrefix sections =>
    rintro snapshot ⟨⟩
    constructor
    · have hrendered : (WorldStateSnapshot.renderWith none sections).NullFree :=
        nullFree_renderWith (by simp) sections
      split_ifs
      · cases baseline with
        | none => exact hrendered
        | some previous => exact (h previous rfl).1
      · exact hrendered
    · rw [replay_append]
      rfl
  | removeFirstItem hadItems =>
    intro snapshot hsnapshot
    cases hadItems with
    | true => cases hsnapshot
    | false =>
      rw [Operation.perform, List.append_nil]
      exact h snapshot hsnapshot

/-- The patch between two snapshots leads from one to the other, and so the records that a session
has written lead to its baseline whenever it has one. -/
theorem worldState_replay :
    (∀ previous current : WorldStateSnapshot σ, current.NullFree →
      (current.mergePatchFrom previous = none ↔ previous = current) ∧
      (previous ≠ current → ∃ patch, current.mergePatchFrom previous = some patch ∧
        previous.applyMergePatch patch = current)) ∧
    ∀ (operations : List (Operation σ)) (snapshot : WorldStateSnapshot σ),
      Run.after Operation.perform none operations = some snapshot →
      replay (Run.outputs Operation.perform none operations) = some snapshot := by
  refine ⟨fun previous current hcurrent => ⟨mergePatchFrom_eq_none_iff, ?_⟩, ?_⟩
  · intro hne
    obtain ⟨patch, hpatch⟩ := Option.ne_none_iff_exists'.mp
      fun hnone => hne (mergePatchFrom_eq_none_iff.mp hnone)
    exact ⟨patch, hpatch, applyMergePatch_of_mergePatchFrom hcurrent hpatch⟩
  · intro operations snapshot hsnapshot
    have hfollows := Run.invariant (Operation.perform (σ := σ)) none
      (P := fun _ baseline records => Follows baseline records) (by simp [Follows])
      (fun _ _ _ operation h => h.perform operation) operations
    exact (hfollows snapshot hsnapshot).2

end Follow

end Codex.History
