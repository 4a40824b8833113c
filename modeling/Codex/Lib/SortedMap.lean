import Mathlib.Algebra.BigOperators.Group.List.Basic
import Mathlib.Algebra.GroupWithZero.Nat
import Mathlib.Data.List.Sort

/-!
# Sorted maps

A finite map as the list of its entries in the order of their keys, each key once.  Two maps
with the same values are the same map (`SortedMap.ext_get`), so that what the operations do
is said by what is found under each key.
-/

namespace Codex

open List

structure SortedMap (κ ν : Type*) [LinearOrder κ] where
  entries : List (κ × ν)
  sorted : entries.Pairwise fun e e' => e.1 < e'.1

namespace SortedMap

variable {κ ν : Type*} [LinearOrder κ]

instance [DecidableEq ν] : DecidableEq (SortedMap κ ν) := fun m m' =>
  decidable_of_iff (m.entries = m'.entries) (by cases m; cases m'; simp)

def empty : SortedMap κ ν := ⟨[], .nil⟩

instance : Inhabited (SortedMap κ ν) := ⟨empty⟩

variable (m : SortedMap κ ν)

def isEmpty : Bool := m.entries.isEmpty

def get (k : κ) : Option ν := (m.entries.find? fun e => e.1 = k).map Prod.snd

def insertEntry : List (κ × ν) → κ → ν → List (κ × ν)
  | [], k, v => [(k, v)]
  | (k', v') :: rest, k, v =>
    if k < k' then (k, v) :: (k', v') :: rest
    else if k = k' then (k, v) :: rest
    else (k', v') :: insertEntry rest k v

theorem mem_insertEntry {entries : List (κ × ν)} {k : κ} {v : ν} {e : κ × ν}
    (hsorted : entries.Pairwise fun e e' => e.1 < e'.1) :
    e ∈ insertEntry entries k v ↔ e = (k, v) ∨ (e ∈ entries ∧ e.1 ≠ k) := by
  induction entries with
  | nil => simp [insertEntry]
  | cons head rest ih =>
    obtain ⟨k', v'⟩ := head
    obtain ⟨hhead, hrest⟩ := pairwise_cons.mp hsorted
    unfold insertEntry
    split_ifs with hlt heq
    · -- every key of the list comes after the new one
      have hne : ∀ e ∈ (k', v') :: rest, e.1 ≠ k :=
        forall_mem_cons.mpr ⟨hlt.ne', fun e he => (hlt.trans (hhead e he)).ne'⟩
      rw [mem_cons]
      exact or_congr_right ⟨fun he => ⟨he, hne e he⟩, And.left⟩
    · have hne : ∀ e ∈ rest, e.1 ≠ k := fun e he => heq ▸ (hhead e he).ne'
      simp only [mem_cons]
      constructor
      · rintro (h | he)
        · exact .inl h
        · exact .inr ⟨.inr he, hne e he⟩
      · rintro (h | ⟨rfl | he, hk⟩)
        · exact .inl h
        · exact absurd heq.symm hk
        · exact .inr he
    · simp only [mem_cons, ih hrest]
      constructor
      · rintro (rfl | h | ⟨he, hk⟩)
        · exact .inr ⟨.inl rfl, Ne.symm heq⟩
        · exact .inl h
        · exact .inr ⟨.inr he, hk⟩
      · rintro (h | ⟨rfl | he, hk⟩)
        · exact .inr (.inl h)
        · exact .inl rfl
        · exact .inr (.inr ⟨he, hk⟩)

theorem pairwise_insertEntry {entries : List (κ × ν)} {k : κ} {v : ν}
    (hsorted : entries.Pairwise fun e e' => e.1 < e'.1) :
    (insertEntry entries k v).Pairwise fun e e' => e.1 < e'.1 := by
  induction entries with
  | nil => simp [insertEntry]
  | cons head rest ih =>
    obtain ⟨hhead, hrest⟩ := pairwise_cons.mp hsorted
    unfold insertEntry
    split_ifs with hlt heq
    · refine pairwise_cons.mpr ⟨forall_mem_cons.mpr ⟨hlt, fun e he => ?_⟩, hsorted⟩
      exact hlt.trans (hhead e he)
    · exact pairwise_cons.mpr ⟨fun e he => heq ▸ hhead e he, hrest⟩
    · refine pairwise_cons.mpr ⟨?_, ih hrest⟩
      intro e he
      rcases (mem_insertEntry hrest).mp he with rfl | ⟨he, -⟩
      · exact lt_of_le_of_ne (not_lt.mp hlt) (Ne.symm heq)
      · exact hhead e he

def insert (k : κ) (v : ν) : SortedMap κ ν :=
  ⟨insertEntry m.entries k v, pairwise_insertEntry m.sorted⟩

/-- The entries that the condition keeps. -/
def retain (keep : κ → ν → Bool) : SortedMap κ ν :=
  ⟨m.entries.filter fun e => keep e.1 e.2, m.sorted.filter _⟩

def erase (k : κ) : SortedMap κ ν := m.retain fun k' _ => k' ≠ k

/-- The sum of a measure over the entries. -/
def total (size : κ × ν → ℕ) (m : SortedMap κ ν) : ℕ := (m.entries.map size).sum

/-- All entries of the second map, put into the first one. -/
def extend (more : SortedMap κ ν) : SortedMap κ ν :=
  more.entries.foldl (fun m e => m.insert e.1 e.2) m

/-! ## What is found under a key -/

variable {m m' : SortedMap κ ν} {k : κ} {v : ν}

theorem nodup_entries (m : SortedMap κ ν) : m.entries.Nodup :=
  m.sorted.imp fun h heq => h.ne (congrArg Prod.fst heq)

theorem find?_eq_some_iff {entries : List (κ × ν)} {k : κ} {v : ν}
    (hsorted : entries.Pairwise fun e e' => e.1 < e'.1) :
    (entries.find? fun e => e.1 = k).map Prod.snd = some v ↔ (k, v) ∈ entries := by
  induction entries with
  | nil => simp
  | cons head rest ih =>
    obtain ⟨k', v'⟩ := head
    obtain ⟨hhead, hrest⟩ := pairwise_cons.mp hsorted
    by_cases hk : k' = k
    · subst hk
      have hnot : (k', v) ∉ rest := fun hmem => lt_irrefl k' (hhead (k', v) hmem)
      simp only [decide_true, find?_cons_of_pos, Option.map_some, Option.some.injEq,
        mem_cons, Prod.mk.injEq, true_and, hnot, or_false]
      exact eq_comm
    · have hne : (k, v) ≠ (k', v') := fun heq => hk (congrArg Prod.fst heq).symm
      rw [find?_cons_of_neg (by simpa using hk), ih hrest, mem_cons, or_iff_right hne]

theorem get_eq_some_iff : m.get k = some v ↔ (k, v) ∈ m.entries := find?_eq_some_iff m.sorted

/-- Maps with the same values are equal. -/
theorem ext_get (h : ∀ k, m.get k = m'.get k) : m = m' := by
  have hmem : ∀ e, e ∈ m.entries ↔ e ∈ m'.entries := by
    rintro ⟨k, v⟩
    rw [← get_eq_some_iff, ← get_eq_some_iff, h]
  have hperm := (perm_ext_iff_of_nodup m.nodup_entries m'.nodup_entries).mpr hmem
  have hentries : m.entries = m'.entries :=
    hperm.eq_of_pairwise (fun e e' _ _ hlt hlt' => absurd hlt (lt_asymm hlt')) m.sorted m'.sorted
  cases m
  cases m'
  cases hentries
  rfl

@[simp] theorem get_empty : (empty : SortedMap κ ν).get k = none := rfl

theorem isEmpty_iff : m.isEmpty = true ↔ ∀ k, m.get k = none := by
  rw [isEmpty, List.isEmpty_iff]
  constructor
  · intro hnil k
    simp [get, hnil]
  · intro hnone
    refine eq_nil_iff_forall_not_mem.mpr fun e he => ?_
    simpa [hnone] using get_eq_some_iff.mpr he

theorem get_insert {k' : κ} : (m.insert k v).get k' = if k' = k then some v else m.get k' := by
  apply Option.ext
  intro w
  rw [get_eq_some_iff, insert, mem_insertEntry m.sorted]
  split_ifs with hk
  · simp [hk, eq_comm]
  · simp [hk, get_eq_some_iff]

theorem get_retain {keep : κ → ν → Bool} :
    (m.retain keep).get k = (m.get k).filter fun v => keep k v := by
  apply Option.ext
  intro w
  rw [get_eq_some_iff, retain, mem_filter, Option.filter_eq_some_iff, get_eq_some_iff]

theorem get_erase {k' : κ} : (m.erase k).get k' = if k' = k then none else m.get k' := by
  rw [erase, get_retain]
  split_ifs with hk
  · cases m.get k' <;> simp [hk]
  · cases m.get k' <;> simp [hk]

theorem perm_insert (h : m.get k = none) : (m.insert k v).entries.Perm ((k, v) :: m.entries) := by
  have hnew : ∀ e ∈ m.entries, e.1 ≠ k := by
    rintro ⟨k', w⟩ he rfl
    rw [get_eq_some_iff.mpr he] at h
    cases h
  have hnodup : ((k, v) :: m.entries).Nodup :=
    nodup_cons.mpr ⟨fun he => hnew _ he rfl, m.nodup_entries⟩
  rw [perm_ext_iff_of_nodup (m.insert k v).nodup_entries hnodup]
  intro e
  rw [insert, mem_insertEntry m.sorted, mem_cons]
  exact or_congr_right ⟨And.left, fun he => ⟨he, hnew e he⟩⟩

theorem perm_erase (h : m.get k = some v) : m.entries.Perm ((k, v) :: (m.erase k).entries) := by
  have hnodup : ((k, v) :: (m.erase k).entries).Nodup := by
    refine nodup_cons.mpr ⟨fun he => ?_, (m.erase k).nodup_entries⟩
    have hget := get_eq_some_iff.mpr he
    rw [get_erase, if_pos rfl] at hget
    cases hget
  rw [perm_ext_iff_of_nodup m.nodup_entries hnodup]
  rintro ⟨k', w⟩
  rw [mem_cons, ← get_eq_some_iff, ← get_eq_some_iff, get_erase]
  split_ifs with hk
  · rw [hk, h]
    simp [eq_comm]
  · simp [hk]

theorem total_insert (size : κ × ν → ℕ) (h : m.get k = none) :
    (m.insert k v).total size = size (k, v) + m.total size := by
  rw [total, ((perm_insert h).map size).sum_eq, map_cons, sum_cons, total]

theorem total_erase (size : κ × ν → ℕ) (h : m.get k = some v) :
    m.total size = size (k, v) + (m.erase k).total size := by
  rw [total, ((perm_erase h).map size).sum_eq, map_cons, sum_cons, total]

theorem length_erase (h : m.get k = some v) :
    m.entries.length = (m.erase k).entries.length + 1 := by
  rw [(perm_erase h).length_eq, length_cons]

theorem get_extend {more : SortedMap κ ν} : (m.extend more).get k = (more.get k).or (m.get k) := by
  -- the entries put in so far are those of a shorter sorted list
  suffices hloop : ∀ (entries : List (κ × ν)) (m : SortedMap κ ν),
      entries.Pairwise (fun e e' => e.1 < e'.1) →
      (entries.foldl (fun m e => m.insert e.1 e.2) m).get k =
        ((entries.find? fun e => e.1 = k).map Prod.snd).or (m.get k) from
    hloop more.entries m more.sorted
  intro entries
  induction entries with
  | nil => simp
  | cons head rest ih =>
    intro m hsorted
    obtain ⟨hhead, hrest⟩ := pairwise_cons.mp hsorted
    rw [foldl_cons, ih _ hrest, get_insert]
    by_cases hk : head.1 = k
    · have hnone : (rest.find? fun e => e.1 = k) = none := by
        rw [find?_eq_none]
        intro e he
        simpa using hk ▸ (hhead e he).ne'
      simp [hnone, hk]
    · rw [find?_cons_of_neg (by simpa using hk), if_neg (Ne.symm hk)]

end SortedMap

end Codex
