import Mathlib.Data.List.Induction

/-!
# Lists that grow at their end

A list that is written from the front only ever changes in two ways: elements are
appended, and the last element, which is still being written, is extended.  `Grows`
says that a list came from another in this way, relative to what it means to extend
an element.
-/

namespace Codex

variable {α : Type*} {R : α → α → Prop}

/-- Every element of `earlier` but the last is in `later` as it was, the last one is
extended, and others may follow. -/
def Grows (R : α → α → Prop) (earlier later : List α) : Prop :=
  earlier = [] ∨ ∃ init last last' added,
    earlier = init ++ [last] ∧ later = init ++ last' :: added ∧ R last last'

namespace Grows

theorem nil (later : List α) : Grows R [] later := .inl rfl

theorem eq_nil {earlier : List α} (h : Grows R earlier []) : earlier = [] := by
  rcases h with hnil | ⟨init, last, last', added, _, hlater, _⟩
  · exact hnil
  · simp at hlater

theorem length_le {earlier later : List α} (h : Grows R earlier later) :
    earlier.length ≤ later.length := by
  rcases h with rfl | ⟨init, last, last', added, rfl, rfl, _⟩
  · exact Nat.zero_le _
  · simp

/-- The last element is extended. -/
theorem setLast (init : List α) {last last' : α} (h : R last last') :
    Grows R (init ++ [last]) (init ++ [last']) :=
  .inr ⟨init, last, last', [], rfl, rfl, h⟩

variable (hrefl : ∀ a, R a a)
include hrefl

/-- Elements are appended. -/
theorem append (earlier added : List α) : Grows R earlier (earlier ++ added) := by
  cases earlier using List.reverseRecOn with
  | nil => exact nil added
  | append_singleton init last =>
    exact .inr ⟨init, last, last, added, rfl, List.append_assoc _ _ _, hrefl last⟩

theorem refl (items : List α) : Grows R items items := by
  have h := append hrefl items []
  rwa [List.append_nil] at h

omit hrefl in
theorem trans (htrans : ∀ a b c, R a b → R b c → R a c) {first second third : List α}
    (h : Grows R first second) (h' : Grows R second third) : Grows R first third := by
  rcases h with rfl | ⟨init, last, last', added, rfl, rfl, hlast⟩
  · exact nil third
  · rcases h' with hnil | ⟨init₂, last₂, last₂', added₂, hsecond, rfl, hlast₂⟩
    · simp at hnil
    · cases added using List.reverseRecOn with
      | nil =>
        -- the element that was extended is still the last one
        obtain ⟨rfl, hsame⟩ := List.append_inj' hsecond rfl
        cases hsame
        exact .inr ⟨init, last, last₂', added₂, rfl, rfl, htrans _ _ _ hlast hlast₂⟩
      | append_singleton added z =>
        rw [← List.cons_append, ← List.append_assoc] at hsecond
        obtain ⟨rfl, _⟩ := List.append_inj' hsecond rfl
        exact .inr ⟨init, last, last', added ++ last₂' :: added₂, rfl, by simp, hlast⟩

end Grows

end Codex
