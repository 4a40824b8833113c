import Mathlib.Algebra.BigOperators.Group.Finset.Basic
import Mathlib.Algebra.GroupWithZero.Nat
import Mathlib.Data.List.AList

/-!
# Association lists as maps

Additions to Mathlib's `AList`: how insertion and removal change the number of entries,
and maps whose values are lists of items that belong to their key.  Such a map sorts a
list of items by their keys; its values together are the items up to their order.
-/

namespace Codex.Assoc

open List

variable {α : Type*} [DecidableEq α] {β : α → Type*} {s : AList β} {a a' : α} {b : β a}

/-! ## Sizes -/

omit [DecidableEq α] in
theorem length_entries (s : AList β) : s.entries.length = s.keys.length := by
  simp [AList.keys, List.keys]

theorem length_erase_le (s : AList β) (a : α) : (s.erase a).entries.length ≤ s.entries.length := by
  rw [length_entries, length_entries, AList.keys_erase]
  exact List.length_erase_le

theorem length_erase_of_mem (h : a ∈ s) : (s.erase a).entries.length = s.entries.length - 1 := by
  rw [length_entries, length_entries, AList.keys_erase]
  exact List.length_erase_of_mem (AList.mem_keys.mp h)

theorem length_insert_le (s : AList β) (a : α) (b : β a) :
    (s.insert a b).entries.length ≤ s.entries.length + 1 := by
  rw [length_entries, length_entries, AList.keys_insert]
  exact Nat.add_le_add_right List.length_erase_le 1

theorem length_insert_of_mem (h : a ∈ s) (b : β a) :
    (s.insert a b).entries.length = s.entries.length := by
  have hkey := AList.mem_keys.mp h
  have hpos := length_pos_of_mem hkey
  rw [length_entries, length_entries, AList.keys_insert, length_cons, List.length_erase_of_mem hkey]
  omega

theorem mem_of_lookup (h : s.lookup a = some b) : a ∈ s := by
  rw [← AList.lookup_isSome, h]
  rfl

theorem lookup_of_lookup_erase (h : (s.erase a').lookup a = some b) : s.lookup a = some b := by
  by_cases heq : a = a'
  · subst heq
    rw [AList.lookup_erase] at h
    cases h
  · rwa [AList.lookup_erase_ne heq] at h

/-- What is found after an insertion was inserted or was there before. -/
theorem lookup_insert_cases {γ : Type*} {s : AList fun _ : α => γ} {value found : γ}
    (h : (s.insert a value).lookup a' = some found) :
    (a' = a ∧ found = value) ∨ (a' ≠ a ∧ s.lookup a' = some found) := by
  by_cases heq : a' = a
  · rw [heq, AList.lookup_insert] at h
    cases h
    exact .inl ⟨heq, rfl⟩
  · rw [AList.lookup_insert_ne heq] at h
    exact .inr ⟨heq, h⟩

/-! ## Totals -/

/-- The sum of a measure over the entries. -/
def total (size : Sigma β → ℕ) (s : AList β) : ℕ := (s.entries.map size).sum

theorem total_insert_of_notMem (size : Sigma β → ℕ) (h : a ∉ s) (b : β a) :
    total size (s.insert a b) = size ⟨a, b⟩ + total size s := by
  rw [total, AList.entries_insert_of_notMem h, map_cons, sum_cons, total]

theorem total_erase_of_lookup (size : Sigma β → ℕ) (h : s.lookup a = some b) :
    total size s = size ⟨a, b⟩ + total size (s.erase a) := by
  obtain ⟨value, front, back, hfront, hentries, herase⟩ :=
    exists_of_kerase (AList.mem_keys.mp (mem_of_lookup h))
  have hvalue : value = b := by
    have hlookup : s.entries.dlookup a = some b := h
    rw [hentries, dlookup_append, dlookup_eq_none.mpr hfront] at hlookup
    simpa using hlookup
  have hrest : (s.erase a).entries = front ++ back := herase
  rw [total, total, hentries, hrest, hvalue]
  simp only [map_append, map_cons, sum_append, sum_cons]
  omega

/-- The total of a measure that depends on the key only. -/
theorem total_eq_sum_keys {size : Sigma β → ℕ} {f : α → ℕ}
    (h : ∀ entry ∈ s.entries, size entry = f entry.1) : total size s = ∑ a ∈ s.keys.toFinset, f a := by
  rw [total, map_congr_left h, sum_toFinset _ s.keys_nodup, AList.keys, List.keys, map_map]
  rfl

/-! ## Items by their keys -/

variable {γ : Type*} (key : γ → α) {entries : List (Sigma fun _ : α => List γ)} {items : List γ}

/-- The value at a key is the list of the items with this key. -/
def Sorts (entries : List (Sigma fun _ : α => List γ)) (items : List γ) : Prop :=
  ∀ a, (entries.dlookup a).getD [] = items.filter fun item => key item = a

variable {key}

variable (h : Sorts key entries items)
include h

theorem Sorts.of_perm {entries' : List (Sigma fun _ : α => List γ)} (hnodup : entries.NodupKeys)
    (hperm : entries'.Perm entries) : Sorts key entries' items := by
  intro a
  rw [← perm_dlookup a hnodup hperm.symm]
  exact h a

/-- The values together are the items. -/
theorem Sorts.flatMap_perm (hnodup : entries.NodupKeys) :
    (entries.flatMap Sigma.snd).Perm items := by
  induction entries generalizing items with
  | nil =>
    have hnone : items = [] := by
      rw [eq_nil_iff_forall_not_mem]
      intro item hitem
      have hmem : item ∈ items.filter fun other => key other = key item := by simp [hitem]
      rw [← h (key item)] at hmem
      cases hmem
    rw [hnone]
    exact List.Perm.refl _
  | cons entry rest ih =>
    obtain ⟨a, value⟩ := entry
    obtain ⟨hnew, hrest⟩ := nodupKeys_cons.mp hnodup
    have hvalue : value = items.filter fun item => key item = a := by
      have ha := h a
      rwa [dlookup_cons_eq, Option.getD_some] at ha
    -- the other values hold the items with other keys
    have hothers : Sorts key rest (items.filter fun item => ¬ key item = a) := by
      intro a'
      by_cases heq : a' = a
      · rw [heq, dlookup_eq_none.mpr hnew]
        symm
        simp
      · have hskip : List.dlookup a' (⟨a, value⟩ :: rest) = List.dlookup a' rest :=
          dlookup_cons_ne rest ⟨a, value⟩ heq
        rw [← hskip, h a', filter_filter]
        apply filter_congr
        intro item _
        by_cases hkey : key item = a'
        · simp [hkey, heq]
        · simp [hkey]
    rw [hvalue]
    refine (List.Perm.append_left _ (ih hothers hrest)).trans ?_
    simpa using filter_append_perm (fun item => decide (key item = a)) items

/-- Of the values together, those with one key are in the order of the items. -/
theorem Sorts.filter_flatMap (hnodup : entries.NodupKeys) (a : α) :
    ((entries.flatMap Sigma.snd).filter fun item => key item = a) =
      items.filter fun item => key item = a := by
  rw [← h a]
  have hkeys : ∀ entry ∈ entries, ∀ item ∈ entry.2, key item = entry.1 := by
    intro entry hentry item hitem
    have hlookup := mem_dlookup hnodup (show Sigma.mk entry.1 entry.2 ∈ entries from hentry)
    have hfilter := h entry.1
    rw [Option.mem_def.mp hlookup, Option.getD_some] at hfilter
    rw [hfilter] at hitem
    simpa using (mem_filter.mp hitem).2
  clear h
  induction entries with
  | nil => rfl
  | cons entry rest ih =>
    obtain ⟨a', value⟩ := entry
    obtain ⟨hnew, hrest⟩ := nodupKeys_cons.mp hnodup
    have hvalue : ∀ item ∈ value, key item = a' := hkeys ⟨a', value⟩ (mem_cons_self ..)
    have ih := ih hrest fun other hother => hkeys other (mem_cons_of_mem _ hother)
    rw [flatMap_cons, filter_append, ih]
    by_cases heq : a = a'
    · subst heq
      have hall : value.filter (fun item => key item = a) = value := by
        rw [filter_eq_self]
        intro item hitem
        simpa using hvalue item hitem
      rw [hall, dlookup_eq_none.mpr hnew]
      simp
    · have hnone : value.filter (fun item => key item = a) = [] := by
        rw [filter_eq_nil_iff]
        intro item hitem
        rw [hvalue item hitem]
        simpa using Ne.symm heq
      have hskip : List.dlookup a (⟨a', value⟩ :: rest) = List.dlookup a rest :=
        dlookup_cons_ne rest ⟨a', value⟩ heq
      rw [hnone, hskip, nil_append]

end Codex.Assoc
