import Mathlib.Data.List.Sort

/-!
# Replacing ranges of a list

An edit removes some consecutive items of a list and puts others in their place.  What
a number of edits do together is described by `splice`: the items inserted before each
position, and which items are removed.  `rebuild` makes edits one after the other, from
the front; for edits that are in order and do not overlap it gives the splice, and such
an order is what a stable sort by their starts produces.
-/

namespace Codex

open List

variable {α : Type*}

/-! ## Splices -/

/-- The items from position `i` on, with `inserted j` put before position `j` and without
the items that are `removed`. -/
def splice (inserted : ℕ → List α) (removed : ℕ → Bool) : ℕ → List α → List α
  | i, [] => inserted i
  | i, item :: rest =>
    inserted i ++ ((if removed i then [] else [item]) ++ splice inserted removed (i + 1) rest)

theorem splice_congr {inserted inserted' : ℕ → List α} {removed removed' : ℕ → Bool} {i : ℕ}
    {items : List α} (hinserted : ∀ j, i ≤ j → inserted j = inserted' j)
    (hremoved : ∀ j, i ≤ j → removed j = removed' j) :
    splice inserted removed i items = splice inserted' removed' i items := by
  induction items generalizing i with
  | nil => exact hinserted i le_rfl
  | cons item rest ih =>
    rw [splice, splice, hinserted i le_rfl, hremoved i le_rfl,
      ih (fun j hj => hinserted j (by omega)) fun j hj => hremoved j (by omega)]

theorem splice_eq_self {inserted : ℕ → List α} {removed : ℕ → Bool} {i : ℕ} {items : List α}
    (hinserted : ∀ j, i ≤ j → inserted j = []) (hremoved : ∀ j, i ≤ j → removed j = false) :
    splice inserted removed i items = items := by
  induction items generalizing i with
  | nil => exact hinserted i le_rfl
  | cons item rest ih =>
    rw [splice, hinserted i le_rfl, hremoved i le_rfl,
      ih (fun j hj => hinserted j (by omega)) fun j hj => hremoved j (by omega)]
    rfl

/-- Items between which nothing is inserted go to the front if they stay, and are dropped if they
are removed. -/
theorem splice_skip {inserted : ℕ → List α} {removed : ℕ → Bool} {gone : Bool} {i n : ℕ}
    {items : List α} (hn : n ≤ items.length)
    (hinserted : ∀ j, i ≤ j → j < i + n → inserted j = [])
    (hremoved : ∀ j, i ≤ j → j < i + n → removed j = gone) :
    splice inserted removed i items =
      (if gone then [] else items.take n) ++ splice inserted removed (i + n) (items.drop n) := by
  induction n generalizing i items with
  | zero => cases gone <;> rfl
  | succ n ih =>
    cases items with
    | nil => simp at hn
    | cons item rest =>
      have hrest := ih (i := i + 1) (by simpa using hn)
        (fun j hj hj' => hinserted j (by omega) (by omega))
        fun j hj hj' => hremoved j (by omega) (by omega)
      rw [splice, hinserted i le_rfl (by omega), hremoved i le_rfl (by omega), hrest, show i + (n + 1) = i + 1 + n by omega]
      cases gone <;> rfl

/-! ## Stable sorting

Sorting by a key leaves items of one key in the order they had. -/

section Stable

variable (key : α → ℕ)

theorem filter_orderedInsert (value : ℕ) (item : α) (items : List α) :
    ((items.orderedInsert (fun a b => key a ≤ key b) item).filter fun a => key a == value) =
      (item :: items).filter fun a => key a == value := by
  induction items with
  | nil => rfl
  | cons other items ih =>
    rw [orderedInsert_cons]
    split
    · rfl
    · next hle =>
        rw [filter_cons, ih]
        by_cases hother : key other = value
        · have hitem : key item ≠ value := by omega
          simp [hother, hitem]
        · simp [filter_cons, hother]

theorem filter_insertionSort (value : ℕ) (items : List α) :
    ((items.insertionSort fun a b => key a ≤ key b).filter fun a => key a == value) =
      items.filter fun a => key a == value := by
  induction items with
  | nil => rfl
  | cons item items ih =>
    rw [insertionSort_cons, filter_orderedInsert, filter_cons, filter_cons, ih]

/-- Of two items in the sorted list the first was first before, or it was not and has the
smaller key. -/
def MovedUp (key : α → ℕ) (before : α → α → Prop) (a b : α) : Prop :=
  before a b ∨ before b a ∧ key a < key b

variable {key} in
theorem pairwise_orderedInsert {before : α → α → Prop} {item : α} {items : List α}
    (hitem : ∀ other ∈ items, before item other) (h : items.Pairwise (MovedUp key before)) :
    (items.orderedInsert (fun a b => key a ≤ key b) item).Pairwise (MovedUp key before) := by
  induction items with
  | nil => exact pairwise_singleton _ _
  | cons other items ih =>
    obtain ⟨hother, hrest⟩ := pairwise_cons.mp h
    rw [orderedInsert_cons]
    split
    · exact pairwise_cons.mpr ⟨fun b hb => .inl (hitem b hb), h⟩
    · next hle =>
        refine pairwise_cons.mpr
          ⟨fun b hb => ?_, ih (fun b hb => hitem b (mem_cons_of_mem _ hb)) hrest⟩
        rcases mem_cons.mp (perm_orderedInsert _ _ _ |>.mem_iff.mp hb) with rfl | hmem
        · exact .inr ⟨hitem other mem_cons_self, not_le.mp hle⟩
        · exact hother b hmem

theorem pairwise_insertionSort {before : α → α → Prop} {items : List α}
    (h : items.Pairwise before) :
    (items.insertionSort fun a b => key a ≤ key b).Pairwise (MovedUp key before) := by
  induction items with
  | nil => exact List.Pairwise.nil
  | cons item items ih =>
    obtain ⟨hitem, hrest⟩ := pairwise_cons.mp h
    refine pairwise_orderedInsert (fun other hother => ?_) (ih hrest)
    exact hitem other ((mem_insertionSort _).mp hother)

end Stable

/-! ## Edits -/

/-- The items from `start` on, `removed` of them, are replaced. -/
structure Edit (α : Type*) where
  start : ℕ
  removed : ℕ
  inserted : List α

namespace Edit

/-- The position is removed. -/
def covers (edit : Edit α) (i : ℕ) : Bool := edit.start ≤ i && i < edit.start + edit.removed

/-- What the edits insert before a position, in their order. -/
def insertedAt (edits : List (Edit α)) (i : ℕ) : List α :=
  (edits.filter fun edit => edit.start == i).flatMap inserted

def removedAt (edits : List (Edit α)) (i : ℕ) : Bool := edits.any fun edit => edit.covers i

theorem insertedAt_cons (edit : Edit α) (edits : List (Edit α)) (i : ℕ) :
    insertedAt (edit :: edits) i =
      (if edit.start = i then edit.inserted else []) ++ insertedAt edits i := by
  by_cases hstart : edit.start = i
  · simp [insertedAt, hstart]
  · simp [insertedAt, hstart]

theorem insertedAt_eq_nil {edits : List (Edit α)} {i : ℕ}
    (h : ∀ edit ∈ edits, edit.start ≠ i) : insertedAt edits i = [] := by
  have hfilter : (edits.filter fun edit => edit.start == i) = [] :=
    filter_eq_nil_iff.mpr fun edit hedit => by simp [h edit hedit]
  rw [insertedAt, hfilter, flatMap_nil]

theorem removedAt_eq_false {edits : List (Edit α)} {i : ℕ}
    (h : ∀ edit ∈ edits, i < edit.start) : removedAt edits i = false := by
  refine any_eq_false.mpr fun edit hedit => ?_
  have hstart := h edit hedit
  simp only [covers, Bool.and_eq_true, decide_eq_true_eq]
  omega

/-- Each edit starts where the one before it ended or later. -/
def Ordered (edits : List (Edit α)) : Prop :=
  edits.Pairwise fun first second => first.start + first.removed ≤ second.start

/-- The edits made from the front, where the items given begin at `position`.  `none` if an
edit starts before the one ahead of it ended. -/
def rebuild : ℕ → List α → List (Edit α) → Option (List α)
  | _, items, [] => some items
  | position, items, edit :: rest =>
    if edit.start < position then none
    else
      let kept := items.take (edit.start - position)
      let items := (items.drop (edit.start - position)).drop edit.removed
      (rebuild (edit.start + edit.removed) items rest).map fun items =>
        kept ++ edit.inserted ++ items

/-- An edit that starts at the first item. -/
theorem splice_edit {items : List α} {edit : Edit α} {rest : List (Edit α)}
    (hbound : edit.removed ≤ items.length)
    (hrest : ∀ other ∈ rest, edit.start + edit.removed ≤ other.start) :
    splice (insertedAt (edit :: rest)) (removedAt (edit :: rest)) edit.start items =
      edit.inserted ++ splice (insertedAt rest) (removedAt rest) (edit.start + edit.removed)
        (items.drop edit.removed) := by
  have hinserted : ∀ j, edit.start ≤ j → j < edit.start + edit.removed →
      insertedAt rest j = [] := by
    intro j _ hj
    refine insertedAt_eq_nil fun other hother heq => ?_
    have := hrest other hother
    omega
  have hremoved : ∀ j, edit.start ≤ j → j < edit.start + edit.removed →
      removedAt (edit :: rest) j = true := by
    intro j hfrom hto
    simp [removedAt, covers, hfrom, hto]
  have hafter : ∀ j, edit.start + edit.removed ≤ j →
      removedAt (edit :: rest) j = removedAt rest j := by
    intro j hj
    have hcovers : edit.covers j = false := by
      simp only [covers, Bool.and_eq_false_iff, decide_eq_false_iff_not]
      omega
    simp only [removedAt, any_cons, hcovers, Bool.false_or]
  have hfront : splice (insertedAt (edit :: rest)) (removedAt (edit :: rest)) edit.start items =
      edit.inserted ++ splice (insertedAt rest) (removedAt (edit :: rest)) edit.start items := by
    have hfirst : insertedAt (edit :: rest) edit.start =
        edit.inserted ++ insertedAt rest edit.start := by rw [insertedAt_cons, if_pos rfl]
    cases items with
    | nil => exact hfirst
    | cons item later =>
      rw [splice, splice, hfirst, List.append_assoc]
      congr 3
      refine splice_congr (fun j hj => ?_) fun _ _ => rfl
      rw [insertedAt_cons, if_neg (by omega), nil_append]
  rw [hfront, splice_skip hbound hinserted hremoved, splice_congr (fun _ _ => rfl) hafter]
  rfl

/-- Edits in order, made from the front, give their splice. -/
theorem rebuild_eq {position : ℕ} {items : List α} {edits : List (Edit α)}
    (hordered : Ordered edits) (hfrom : ∀ edit ∈ edits, position ≤ edit.start)
    (hto : ∀ edit ∈ edits, edit.start + edit.removed ≤ position + items.length) :
    rebuild position items edits =
      some (splice (insertedAt edits) (removedAt edits) position items) := by
  induction edits generalizing position items with
  | nil =>
    have hself : splice (insertedAt []) (removedAt ([] : List (Edit α))) position items = items :=
      splice_eq_self (fun _ _ => rfl) fun _ _ => rfl
    rw [rebuild, hself]
  | cons edit rest ih =>
    obtain ⟨hrest, hordered⟩ := pairwise_cons.mp hordered
    have hedit : position ≤ edit.start := hfrom edit mem_cons_self
    have hbound := hto edit mem_cons_self
    have hstarts : ∀ other ∈ edit :: rest, edit.start ≤ other.start :=
      forall_mem_cons.mpr
        ⟨le_rfl, fun other hmem => (Nat.le_add_right _ _).trans (hrest other hmem)⟩
    obtain ⟨n, hn⟩ := Nat.exists_eq_add_of_le hedit
    have hlater : rebuild (edit.start + edit.removed) ((items.drop n).drop edit.removed) rest =
        some (splice (insertedAt rest) (removedAt rest) (edit.start + edit.removed)
          ((items.drop n).drop edit.removed)) := by
      refine ih hordered hrest fun other hother => ?_
      have hother := hto other (mem_cons_of_mem _ hother)
      rw [length_drop, length_drop]
      omega
    have hkeep : splice (insertedAt (edit :: rest)) (removedAt (edit :: rest)) position items =
        items.take n ++ splice (insertedAt (edit :: rest)) (removedAt (edit :: rest))
          (position + n) (items.drop n) := by
      refine splice_skip (by omega) (fun j _ hj => ?_)
        fun j _ hj => (?_ : removedAt (edit :: rest) j = false)
      · refine insertedAt_eq_nil fun other hother heq => ?_
        have := hstarts other hother
        omega
      · refine removedAt_eq_false fun other hother => ?_
        have := hstarts other hother
        omega
    have hremoved : edit.removed ≤ (items.drop n).length := by
      rw [length_drop]
      omega
    have hsub : edit.start - position = n := by omega
    rw [hkeep, ← hn, splice_edit hremoved hrest, rebuild, if_neg (by omega)]
    simp only [hsub, hlater, Option.map_some, List.append_assoc]

end Edit

end Codex
