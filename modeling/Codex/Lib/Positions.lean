import Mathlib.Data.List.Enum

/-!
# Edits by position

A list is gone through once to note positions, and edited afterwards: by inserting an item
behind each noted position, the last one first, or by leaving out the items at the noted
positions.  Either edit acts item by item.
-/

namespace Codex

open List

namespace Positions

variable {α β : Type*}

variable (f : α → Option β) (items : List α) (start : ℕ)

/-- What is noted of each item, with the item's position; the first one stands at `start`. -/
def noted : List (ℕ × β) :=
  (items.zipIdx start).filterMap fun (item, position) => (f item).map fun b => (position, b)

/-- Items put behind the noted positions, from the last one to the first. -/
def insertBehind (items : List α) (insertions : List (ℕ × α)) : List α :=
  insertions.reverse.foldl (fun items insertion => items.insertIdx (insertion.1 + 1) insertion.2) items

/-- The items that do not stand at one of the positions, which are in order. -/
def leaveOut : List ℕ → ℕ → List α → List α
  | _, _, [] => []
  | positions, position, item :: items =>
    if positions.head? = some position then leaveOut positions.tail (position + 1) items
    else item :: leaveOut positions (position + 1) items

theorem noted_cons (item : α) (items : List α) (start : ℕ) :
    noted f (item :: items) start =
      ((f item).map fun b => (start, b)).toList ++ noted f items (start + 1) := by
  simp only [noted, zipIdx_cons, filterMap_cons]
  cases f item <;> rfl

theorem le_of_mem_noted {f : α → Option β} {items : List α} {start : ℕ} {note : ℕ × β}
    (h : note ∈ noted f items start) : start ≤ note.1 := by
  obtain ⟨⟨item, position⟩, hmem, hnote⟩ := mem_filterMap.mp h
  obtain ⟨b, -, rfl⟩ := Option.map_eq_some_iff.mp hnote
  exact le_snd_of_mem_zipIdx hmem

theorem insertIdx_length (front back : List α) (item : α) :
    (front ++ back).insertIdx front.length item = front ++ item :: back := by
  induction front with
  | nil => rfl
  | cons first front ih => simp [ih]

/-- Each item is followed by what was noted of it. -/
theorem insertBehind_noted (f : α → Option α) (items : List α) :
    insertBehind items (noted f items 0) = items.flatMap fun item => item :: (f item).toList := by
  -- the items in front have been passed and keep their positions
  suffices hfront : ∀ front : List α, insertBehind (front ++ items) (noted f items front.length) =
      front ++ items.flatMap fun item => item :: (f item).toList from hfront []
  induction items with
  | nil => intro front; rfl
  | cons item items ih =>
    intro front
    have hrest := ih (front ++ [item])
    rw [length_append, length_singleton, List.append_assoc, singleton_append] at hrest
    rw [noted_cons, flatMap_cons]
    cases f item with
    | none =>
      simpa using hrest
    | some b =>
      simp only [Option.map_some, Option.toList_some, singleton_append]
      rw [insertBehind, reverse_cons, foldl_concat, ← insertBehind, hrest]
      have hinsert := insertIdx_length (front ++ [item])
        (items.flatMap fun item => item :: (f item).toList) b
      simpa using hinsert

@[simp] theorem leaveOut_nil (position : ℕ) (items : List α) : leaveOut [] position items = items := by
  induction items generalizing position with
  | nil => rfl
  | cons item items ih => simp [leaveOut, ih]

/-- The items of which nothing was noted are left. -/
theorem leaveOut_noted :
    leaveOut ((noted f items start).map Prod.fst) start items =
      items.filter fun item => (f item).isNone := by
  induction items generalizing start with
  | nil => rfl
  | cons item items ih =>
    rw [noted_cons, filter_cons]
    cases hf : f item with
    | some b => simpa [leaveOut] using ih (start + 1)
    | none =>
      -- what is noted later stands behind this position
      have hhead : ((noted f items (start + 1)).map Prod.fst).head? ≠ some start := by
        intro heq
        obtain ⟨note, hnote, hstart⟩ := mem_map.mp (mem_of_mem_head? heq)
        have hle := le_of_mem_noted hnote
        omega
      simp only [Option.map_none, Option.toList_none, nil_append, leaveOut, if_neg hhead, ih,
        Option.isNone_none, if_true]

theorem flatMap_filter_of_nil {keep : α → Bool} {f : α → List β} {items : List α}
    (h : ∀ item ∈ items, keep item = false → f item = []) :
    (items.filter keep).flatMap f = items.flatMap f := by
  induction items with
  | nil => rfl
  | cons item items ih =>
    have hrest := ih fun other hother => h other (by simp [hother])
    cases hkeep : keep item with
    | true => simp [hkeep, hrest]
    | false => simp [hkeep, hrest, h item (by simp) hkeep]

/-- Up to the place of an occurrence stand the occurrences before it, and then the occurrence. -/
theorem filter_take_of_findIdxs {p : α → Bool} {items : List α} {k place : ℕ}
    (h : (items.findIdxs p)[k]? = some place) :
    (items.take place).filter p = (items.filter p).take k ∧
      items[place]? = (items.filter p)[k]? := by
  induction items generalizing k place with
  | nil => simp at h
  | cons item items ih =>
    rw [findIdxs_cons, findIdxs_start] at h
    cases hitem : p item with
    | false =>
      simp only [hitem, Bool.false_eq_true, if_false, getElem?_map, Option.map_eq_some_iff] at h
      obtain ⟨place, hplace, rfl⟩ := h
      rw [take_succ_cons, filter_cons_of_neg (by simp [hitem]),
        filter_cons_of_neg (by simp [hitem])]
      exact ih hplace
    | true =>
      simp only [hitem, if_true] at h
      rw [filter_cons_of_pos hitem]
      cases k with
      | zero =>
        have hzero : place = 0 := by simpa [eq_comm] using h
        rw [hzero]
        exact ⟨rfl, rfl⟩
      | succ k =>
        simp only [getElem?_cons_succ, getElem?_map, Option.map_eq_some_iff] at h
        obtain ⟨place, hplace, rfl⟩ := h
        rw [take_succ_cons, filter_cons_of_pos hitem, (ih hplace).1]
        exact ⟨rfl, (ih hplace).2⟩

end Positions

end Codex
