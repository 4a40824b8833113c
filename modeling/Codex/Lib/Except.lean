import Mathlib.Data.List.Basic

/-!
# Computations that may fail

How a computation that succeeded is taken apart: a sequence of two into its parts, a loop
into its rounds.
-/

namespace Codex

open List

variable {ε α β ι : Type}

theorem bind_eq_ok_iff {x : Except ε α} {f : α → Except ε β} {b : β} :
    x >>= f = .ok b ↔ ∃ a, x = .ok a ∧ f a = .ok b := by
  cases x with
  | error e | ok a => simp [bind, Except.bind]

alias ⟨bind_eq_ok, _⟩ := bind_eq_ok_iff

theorem map_eq_ok {x : Except ε α} {f : α → β} {b : β} (h : x.map f = .ok b) :
    ∃ a, x = .ok a ∧ f a = b := by
  cases x with
  | error e => cases h
  | ok a =>
    cases h
    exact ⟨a, rfl, rfl⟩

theorem mapM_eq_some_spec {α β : Type*} {f : α → Option (List β)} {l : List α}
    {lists : List (List β)} (h : l.mapM f = some lists) :
    (∀ a ∈ l, (f a).isSome = true) ∧
      ∀ b, b ∈ lists.flatten ↔ ∃ a ∈ l, ∃ out, f a = some out ∧ b ∈ out := by
  induction l generalizing lists with
  | nil =>
    obtain rfl : lists = [] := by simpa using h.symm
    simp
  | cons a rest ih =>
    rw [mapM_cons] at h
    obtain ⟨first, hfirst, h⟩ := Option.bind_eq_some_iff.mp h
    obtain ⟨others, hothers, h⟩ := Option.bind_eq_some_iff.mp h
    obtain rfl := Option.some_inj.mp h
    obtain ⟨hsome, hmem⟩ := ih hothers
    refine ⟨?_, ?_⟩
    · intro a' ha'
      rcases mem_cons.mp ha' with rfl | hrest
      · simp [hfirst]
      · exact hsome a' hrest
    · intro b
      rw [flatten_cons, mem_append, hmem]
      simp [hfirst]

theorem exists_mapM_eq_some {α β : Type*} {f : α → Option β} {l : List α}
    (h : ∀ a ∈ l, (f a).isSome = true) : ∃ out, l.mapM f = some out := by
  induction l with
  | nil => exact ⟨[], rfl⟩
  | cons a rest ih =>
    obtain ⟨first, hfirst⟩ := Option.isSome_iff_exists.mp (h a (mem_cons_self ..))
    obtain ⟨others, hothers⟩ := ih fun a' ha' => h a' (mem_cons_of_mem _ ha')
    exact ⟨first :: others, by rw [mapM_cons, hfirst, hothers]; rfl⟩

/-- A loop that makes a list succeeds if all its rounds do. -/
theorem mapM_eq_ok {f : α → Except ε β} {g : α → β} {items : List α}
    (h : ∀ item ∈ items, f item = .ok (g item)) : items.mapM f = .ok (items.map g) := by
  induction items with
  | nil => rfl
  | cons item items ih =>
    rw [mapM_cons, h item mem_cons_self, ih fun other hother => h other (mem_cons_of_mem _ hother)]
    rfl

/-- What holds at the start of a loop and is kept by every round that succeeds holds at the
end of a loop that succeeds. -/
theorem foldlM_invariant {f : α → ι → Except ε α} {I : List ι → α → Prop} {start result : α}
    {items : List ι} (hstart : I [] start)
    (hstep : ∀ past a item b, I past a → item ∈ items → f a item = .ok b → I (past ++ [item]) b)
    (h : items.foldlM f start = .ok result) : I items result := by
  -- the rounds made so far are carried along as `past`
  suffices hloop : ∀ past rest a, (∀ item ∈ rest, item ∈ items) → I past a →
      rest.foldlM f a = .ok result → I (past ++ rest) result from
    hloop [] items start (fun _ hitem => hitem) hstart h
  intro past rest
  induction rest generalizing past with
  | nil =>
    intro a _ hpast hresult
    cases hresult
    rwa [append_nil]
  | cons item rest ih =>
    intro a hrest hpast hresult
    obtain ⟨b, hb, hresult⟩ := bind_eq_ok hresult
    have hnext := hstep past a item b hpast (hrest item (by simp)) hb
    have hloop := ih (past ++ [item]) b (fun other hother => hrest other (by simp [hother]))
      hnext hresult
    simpa using hloop

end Codex
