import Mathlib.Data.List.Induction
import Mathlib.Data.Nat.Init

/-!
# Runs of a machine with outputs

A machine takes one input at a time, changes its state and puts out a list of
outputs.  What holds of the inputs, the state and the outputs of every run is shown by
one induction: it holds at the start, and a step keeps it.
-/

namespace Codex

namespace Run

variable {σ ι ο : Type*} (step : σ → ι → σ × List ο) (start : σ)

variable (inputs : List ι)

/-- The state after the inputs, and all outputs on the way. -/
def run : σ × List ο :=
  inputs.foldl (fun reached input => ((step reached.1 input).1, reached.2 ++ (step reached.1 input).2))
    (start, [])

def after : σ := (run step start inputs).1

def outputs : List ο := (run step start inputs).2

@[simp] theorem after_nil : after step start [] = start := rfl

@[simp] theorem outputs_nil : outputs step start [] = [] := rfl

theorem after_concat (input : ι) :
    after step start (inputs ++ [input]) = (step (after step start inputs) input).1 := by
  simp [after, run, List.foldl_append]

theorem outputs_concat (input : ι) :
    outputs step start (inputs ++ [input]) =
      outputs step start inputs ++ (step (after step start inputs) input).2 := by
  simp [outputs, after, run, List.foldl_append]

theorem after_append (inputs more : List ι) :
    after step start (inputs ++ more) = after step (after step start inputs) more := by
  induction more using List.reverseRecOn with
  | nil => simp
  | append_singleton more input ih =>
    rw [← List.append_assoc, after_concat, after_concat, ih]

theorem outputs_append (inputs more : List ι) :
    outputs step start (inputs ++ more) =
      outputs step start inputs ++ outputs step (after step start inputs) more := by
  induction more using List.reverseRecOn with
  | nil => simp
  | append_singleton more input ih =>
    rw [← List.append_assoc, outputs_concat, outputs_concat, ih, after_append, List.append_assoc]

/-- What holds at the start and is kept by every step holds along every run. -/
theorem invariant {P : List ι → σ → List ο → Prop} (hstart : P [] start [])
    (hstep : ∀ past state out input, P past state out →
      P (past ++ [input]) (step state input).1 (out ++ (step state input).2))
    (inputs : List ι) : P inputs (after step start inputs) (outputs step start inputs) := by
  induction inputs using List.reverseRecOn with
  | nil => exact hstart
  | append_singleton inputs input ih =>
    rw [after_concat, outputs_concat]
    exact hstep inputs _ _ input ih

/-! ## Endless runs -/

/-- The state after so many inputs of a schedule without end. -/
def along (schedule : ℕ → ι) (n : ℕ) : σ := after step start ((List.range n).map schedule)

@[simp] theorem along_zero (schedule : ℕ → ι) : along step start schedule 0 = start := rfl

theorem along_succ (schedule : ℕ → ι) (n : ℕ) :
    along step start schedule (n + 1) = (step (along step start schedule n) (schedule n)).1 := by
  rw [along, List.range_succ, List.map_append, List.map_singleton, after_concat]
  rfl

/-- What is kept from one moment to the next is kept for good. -/
theorem keep {P : ℕ → Prop} (hkeep : ∀ n, P n → P (n + 1)) {m n : ℕ} (hle : m ≤ n) (h : P m) :
    P n := by
  induction n, hle using Nat.le_induction with
  | base => exact h
  | succ n _ ih => exact hkeep n ih

/-- A rank that drops at every turn, and does not grow in between, leads to the goal. -/
theorem exists_of_rank (P : ℕ → Prop) {Q : ℕ → Prop} (rank : ℕ → ℕ) {turn : ℕ → Prop}
    (hoften : ∀ n, ∃ m ≥ n, turn m)
    (hturn : ∀ n, turn n → P n → Q (n + 1) ∨ P (n + 1) ∧ rank (n + 1) < rank n)
    (hother : ∀ n, ¬turn n → P n → Q (n + 1) ∨ P (n + 1) ∧ rank (n + 1) ≤ rank n) {n : ℕ}
    (h : P n) : ∃ m ≥ n, Q m := by
  induction hrank : rank n using Nat.strong_induction_on generalizing n with
  | _ bound ih =>
    obtain ⟨m, hm, hdue⟩ := hoften n
    -- up to that turn the goal is reached or the rank has not grown
    have hbefore : (∃ k ≥ n, Q k) ∨ P m ∧ rank m ≤ rank n := by
      clear hdue
      induction m, hm using Nat.le_induction with
      | base => exact .inr ⟨h, Nat.le_refl _⟩
      | succ m hle ihm =>
        rcases ihm with hreached | ⟨hP, hsmall⟩
        · exact .inl hreached
        · have hstep : Q (m + 1) ∨ P (m + 1) ∧ rank (m + 1) ≤ rank m := by
            by_cases hdue : turn m
            · exact (hturn m hdue hP).imp_right fun ⟨hP, hlt⟩ => ⟨hP, Nat.le_of_lt hlt⟩
            · exact hother m hdue hP
          rcases hstep with hQ | ⟨hP, hstep⟩
          · exact .inl ⟨m + 1, by omega, hQ⟩
          · exact .inr ⟨hP, Nat.le_trans hstep hsmall⟩
    rcases hbefore with hreached | ⟨hP, hsmall⟩
    · exact hreached
    · rcases hturn m hdue hP with hQ | ⟨hnext, hlt⟩
      · exact ⟨m + 1, by omega, hQ⟩
      · obtain ⟨k, hk, hQ⟩ := ih (rank (m + 1)) (by omega) hnext rfl
        exact ⟨k, by omega, hQ⟩

end Run

end Codex
