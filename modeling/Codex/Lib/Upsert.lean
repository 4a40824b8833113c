import Mathlib.Data.List.Induction
import Mathlib.Data.List.Nodup

/-!
# Lists with keys

An item put into a list replaces all items with its key and goes to the end.  After a row of
items has been put in, the list is made of the old items whose keys did not occur, in their
order, and of the last new item of each key.
-/

namespace Codex

open List

namespace Keyed

variable {α κ : Type*} [DecidableEq κ] (key : α → κ)

variable (items : List α)

def upsert (item : α) : List α := items.filter (fun x => key x ≠ key item) ++ [item]

def upsertAll (more : List α) : List α := more.foldl (upsert key) items

/-- The items whose keys do not occur in the other list. -/
def without (more : List α) : List α := items.filter fun x => key x ∉ more.map key

@[simp] theorem upsertAll_nil : upsertAll key items [] = items := rfl

theorem upsertAll_concat (more : List α) (item : α) :
    upsertAll key items (more ++ [item]) = upsert key (upsertAll key items more) item := by
  simp [upsertAll]

theorem upsertAll_append (more last : List α) :
    upsertAll key items (more ++ last) = upsertAll key (upsertAll key items more) last := by
  simp [upsertAll]

variable {key} {items more : List α} {x : α}

theorem mem_without_iff : x ∈ without key items more ↔ x ∈ items ∧ key x ∉ more.map key := by
  simp [without]

theorem without_append (items items' more : List α) :
    without key (items ++ items') more = without key items more ++ without key items' more :=
  filter_append ..

theorem without_eq_self (h : ∀ x ∈ items, key x ∉ more.map key) : without key items more = items :=
  filter_eq_self.mpr fun x hx => decide_eq_true (h x hx)

variable (key) in
/-- The items of a list fall into those without and those with one of the keys. -/
theorem exists_without_perm (items more : List α) :
    ∃ shared, items.Perm (without key items more ++ shared) ∧
      ∀ x, x ∈ shared ↔ x ∈ items ∧ key x ∈ more.map key := by
  refine ⟨_, (filter_append_perm (fun x => key x ∉ more.map key) items).symm, fun x => ?_⟩
  simp

theorem without_comm (items more last : List α) :
    without key (without key items more) last = without key (without key items last) more := by
  simp only [without, filter_filter]
  exact filter_congr fun x _ => Bool.and_comm _ _

/-- The old items whose keys do not occur, then what is left of the new ones. -/
theorem upsertAll_eq (items more : List α) :
    upsertAll key items more = without key items more ++ upsertAll key [] more := by
  unfold without
  induction more using List.reverseRecOn with
  | nil => simp
  | append_singleton more item ih =>
    rw [upsertAll_concat, upsertAll_concat, ih, upsert, upsert, filter_append,
      filter_filter, List.append_assoc]
    congr 1
    apply filter_congr
    intro x _
    rw [Bool.eq_iff_iff]
    simp only [Bool.and_eq_true, decide_eq_true_eq, ne_eq, map_append, mem_append,
      map_cons, map_nil, mem_singleton, not_or]
    exact and_comm

theorem mem_of_mem_upsertAll (h : x ∈ upsertAll key [] more) : x ∈ more := by
  induction more using List.reverseRecOn with
  | nil => simp at h
  | append_singleton more item ih =>
    rw [upsertAll_concat, upsert] at h
    rcases mem_append.mp h with hold | hnew
    · exact mem_append_left _ (ih (mem_of_mem_filter hold))
    · exact mem_append_right _ hnew

variable (key) in
/-- Every key that was put in is still there. -/
theorem exists_mem_upsertAll (h : x ∈ more) : ∃ y ∈ upsertAll key [] more, key y = key x := by
  induction more using List.reverseRecOn with
  | nil => simp at h
  | append_singleton more item ih =>
    rw [upsertAll_concat, upsert]
    by_cases hkey : key x = key item
    · exact ⟨item, by simp, hkey.symm⟩
    · rcases mem_append.mp h with hold | hnew
      · obtain ⟨y, hy, hyx⟩ := ih hold
        refine ⟨y, mem_append_left _ (mem_filter.mpr ⟨hy, ?_⟩), hyx⟩
        simpa [hyx] using hkey
      · exact absurd (congrArg key (mem_singleton.mp hnew)) hkey

/-- No key is left twice. -/
theorem pairwise_upsertAll (more : List α) :
    (upsertAll key [] more).Pairwise fun x y => key x ≠ key y := by
  induction more using List.reverseRecOn with
  | nil => simp
  | append_singleton more item ih =>
    rw [upsertAll_concat, upsert, pairwise_append]
    refine ⟨ih.filter _, pairwise_singleton _ _, ?_⟩
    intro x hx y hy
    cases mem_singleton.mp hy
    simpa using (mem_filter.mp hx).2

/-- Items of different keys are all kept. -/
theorem upsertAll_of_pairwise (h : more.Pairwise fun x y => key x ≠ key y) :
    upsertAll key [] more = more := by
  induction more using List.reverseRecOn with
  | nil => rfl
  | append_singleton more item ih =>
    obtain ⟨hmore, -, hlast⟩ := pairwise_append.mp h
    rw [upsertAll_concat, ih hmore, upsert, filter_eq_self.mpr]
    intro x hx
    simpa using hlast x hx item (by simp)

theorem mem_keys_upsertAll {k : κ} : k ∈ (upsertAll key [] more).map key ↔ k ∈ more.map key := by
  simp only [mem_map]
  constructor
  · rintro ⟨x, hx, rfl⟩
    exact ⟨x, mem_of_mem_upsertAll hx, rfl⟩
  · rintro ⟨x, hx, rfl⟩
    exact exists_mem_upsertAll key hx

theorem upsertAll_eq_nil_iff : upsertAll key [] more = [] ↔ more = [] := by
  rw [← map_eq_nil_iff (f := key), ← map_eq_nil_iff (f := key) (l := more)]
  simp only [eq_nil_iff_forall_not_mem, mem_keys_upsertAll]

/-- Only the keys of the new items count. -/
theorem without_upsertAll (items more : List α) :
    without key items (upsertAll key [] more) = without key items more := by
  refine filter_congr fun x _ => ?_
  rw [decide_eq_decide, mem_keys_upsertAll]

end Keyed

end Codex
