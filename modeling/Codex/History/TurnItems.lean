import Codex.Lib.Text

/-!
# The lazy index of a turn's items

An item of a turn is replaced by its id.  In a long list the place of an id is looked up in an
index, which is built when it is first needed and kept up to date from then on.  With or without it
an id stands for the first item that has it.

`lazy_index_as_linear_search` is over any calls; one call is `Call.run_eq`, and the index is right
whenever it is there (`Indexes`).
-/

namespace Codex.History

open List

/-- An item of a thread: its id and what the index does not look at. -/
structure ThreadItem (β : Type*) where
  id : Str
  content : β

def turnItemIndexThreshold : ℕ := 32

structure TurnItemIndex where
  positions : Option (Str → Option ℕ)

/-- `HashMap::entry` with `or_insert`. -/
def orInsert (positions : Str → Option ℕ) (id : Str) (index : ℕ) : Str → Option ℕ :=
  Function.update positions id (some ((positions id).getD index))

variable {β : Type*}

/-- The linear search for an id. -/
def position (items : List (ThreadItem β)) (id : Str) : Option ℕ := items.findIdx? (·.id = id)

namespace TurnItemIndex

variable (index : TurnItemIndex) (items : List (ThreadItem β)) (item : ThreadItem β)

def push : TurnItemIndex × List (ThreadItem β) :=
  (⟨index.positions.map fun positions => orInsert positions item.id items.length⟩, items ++ [item])

/-- The index, built if the list has become long. -/
def activate : TurnItemIndex :=
  if index.positions.isNone ∧ turnItemIndexThreshold ≤ items.length then
    ⟨some (items.zipIdx.foldl (fun positions entry => orInsert positions entry.1.id entry.2)
      fun _ => none)⟩
  else index

/-- With the item in its place, which is not there if the index went out of range. -/
def upsert : Option ((TurnItemIndex × List (ThreadItem β)) × ThreadItem β) :=
  let index := index.activate items
  let existingIndex := match index.positions with
    | some positions => positions item.id
    | none => position items item.id
  match existingIndex with
  | some i => (items.set i item)[i]?.map fun entry => ((index, items.set i item), entry)
  | none => (items ++ [item])[items.length]?.map fun entry => (index.push items item, entry)

end TurnItemIndex

inductive Call (β : Type*) where
  | push (item : ThreadItem β)
  | upsert (item : ThreadItem β)

namespace Call

def run (state : TurnItemIndex × List (ThreadItem β)) :
    Call β → Option (TurnItemIndex × List (ThreadItem β))
  | push item => some (state.1.push state.2 item)
  | upsert item => (state.1.upsert state.2 item).map Prod.fst

/-- The call without an index. -/
def runLinear (items : List (ThreadItem β)) : Call β → List (ThreadItem β)
  | push item => items ++ [item]
  | upsert item =>
    match position items item.id with
    | some i => items.set i item
    | none => items ++ [item]

end Call

variable {items : List (ThreadItem β)} {item : ThreadItem β} {index : TurnItemIndex}

theorem position_eq (items : List (ThreadItem β)) (id : Str) :
    position items id = (items.map ThreadItem.id).findIdx? (· = id) := by
  rw [findIdx?_map]
  rfl

/-- An index that was built finds what the search finds. -/
def Indexes (index : TurnItemIndex) (items : List (ThreadItem β)) : Prop :=
  ∀ positions ∈ index.positions, positions = position items

theorem orInsert_position : orInsert (position items) item.id items.length =
    position (items ++ [item]) := by
  funext id
  rw [position, findIdx?_append, ← position]
  by_cases hid : id = item.id
  · subst hid
    cases hposition : position items item.id <;> simp [orInsert, findIdx?_singleton, hposition]
  · simp [orInsert, hid, Ne.symm hid, findIdx?_singleton]

namespace Indexes

theorem push (h : Indexes index items) :
    Indexes (index.push items item).1 (index.push items item).2 := by
  intro positions hpositions
  obtain ⟨before, hbefore, rfl⟩ := Option.map_eq_some_iff.mp hpositions
  rw [h before hbefore]
  exact orInsert_position

theorem activate (h : Indexes index items) : Indexes (index.activate items) items := by
  unfold TurnItemIndex.activate
  split_ifs with hlong
  · clear h hlong
    rintro _ ⟨⟩
    induction items using List.reverseRecOn with
    | nil => rfl
    | append_singleton items item ih =>
      rw [zipIdx_append, foldl_append, ih, ← orInsert_position]
      simp
  · exact h

/-- A replaced item has the id of the one before. -/
theorem set {i : ℕ} (h : Indexes index items) (hposition : position items item.id = some i) :
    Indexes index (items.set i item) := by
  obtain ⟨hlt, hid, -⟩ := findIdx?_eq_some_iff_getElem.mp hposition
  have hids : (items.set i item).map ThreadItem.id = items.map ThreadItem.id := by
    rw [map_set, ← of_decide_eq_true hid, ← getElem_map ThreadItem.id (h := by simpa using hlt),
      set_getElem_self]
  intro positions hpositions
  funext id
  rw [h positions hpositions, position_eq, position_eq, hids]

end Indexes

theorem Call.run_eq (call : Call β) (h : Indexes index items) :
    ∃ index', call.run (index, items) = some (index', call.runLinear items) ∧
      Indexes index' (call.runLinear items) := by
  cases call with
  | push item => exact ⟨_, rfl, h.push⟩
  | upsert item =>
    have hfound : (match (index.activate items).positions with
        | some positions => positions item.id
        | none => position items item.id) = position items item.id := by
      cases hpositions : (index.activate items).positions with
      | none => rfl
      | some positions => rw [h.activate positions hpositions]
    simp only [run, TurnItemIndex.upsert, runLinear, hfound]
    cases hposition : position items item.id with
    | none => exact ⟨_, by simp [TurnItemIndex.push], h.activate.push⟩
    | some i =>
      obtain ⟨hlt, -⟩ := findIdx?_eq_some_iff_getElem.mp hposition
      exact ⟨_, by simp [hlt], h.activate.set hposition⟩

/-- The calls on a turn's items leave what they would leave without an index, and none of them goes
out of range. -/
theorem lazy_index_as_linear_search (calls : List (Call β)) (items : List (ThreadItem β)) :
    (calls.foldlM Call.run (⟨none⟩, items)).map Prod.snd =
      some (calls.foldl Call.runLinear items) := by
  suffices hrun : ∀ index, Indexes index items →
      (calls.foldlM Call.run (index, items)).map Prod.snd =
        some (calls.foldl Call.runLinear items) from
    hrun ⟨none⟩ fun _ hnone => by cases hnone
  induction calls generalizing items with
  | nil => exact fun _ _ => rfl
  | cons call calls ih =>
    intro index h
    obtain ⟨index', hrun, h'⟩ := call.run_eq h
    rw [foldlM_cons, hrun]
    exact ih _ index' h'

end Codex.History
