import Mathlib.Data.List.MinMax
import Mathlib.Data.Prod.Lex

/-!
# The most specific rule decides

Rules give an access to everything at or below a root.  Of the rules that cover a
thing the deepest one governs it, and of equally deep rules the one with the greatest
access.  What it gives depends on which rules there are, and not on their order.
-/

namespace Codex

theorem any_congr_of_mem_iff {β : Type*} {left right : List β} (p : β → Bool)
    (h : ∀ b, b ∈ left ↔ b ∈ right) : left.any p = right.any p := by
  rw [Bool.eq_iff_iff]
  simp only [List.any_eq_true, h]

/-- An access for what lies at or below a root; the depth says how specific it is. -/
structure Rule (ρ α : Type*) where
  root : ρ
  access : α
  depth : ℕ
  deriving DecidableEq

namespace Rule

variable {ρ α : Type*} [LinearOrder α] {covers : ρ → Bool} {rules rules' : List (Rule ρ α)}
  {rule : Rule ρ α} {a : α}

def key (rule : Rule ρ α) : ℕ ×ₗ α := toLex (rule.depth, rule.access)

/-- The covering rule of greatest key. -/
def governing (covers : ρ → Bool) (rules : List (Rule ρ α)) : Option (Rule ρ α) :=
  (rules.filter fun rule => covers rule.root).argmax key

theorem governing_spec (h : governing covers rules = some rule) :
    rule ∈ rules ∧ covers rule.root ∧ ∀ other ∈ rules, covers other.root → other.key ≤ rule.key := by
  have hmem := List.argmax_mem h
  rw [List.mem_filter] at hmem
  refine ⟨hmem.1, hmem.2, ?_⟩
  intro other hother hcovers
  exact List.le_of_mem_argmax (List.mem_filter.mpr ⟨hother, hcovers⟩) h

theorem governing_eq_none_iff :
    governing covers rules = none ↔ ∀ rule ∈ rules, covers rule.root = false := by
  simp [governing, List.argmax_eq_none, List.filter_eq_nil_iff]

theorem exists_governing (hmem : rule ∈ rules) (hcovers : covers rule.root) :
    ∃ top, governing covers rules = some top := by
  rw [← Option.ne_none_iff_exists']
  intro hnone
  have := governing_eq_none_iff.mp hnone rule hmem
  simp [hcovers] at this

/-- The access that governs is the one of a covering rule that no covering rule exceeds. -/
theorem governing_access_eq_some_iff :
    (governing covers rules).map access = some a ↔
      ∃ rule ∈ rules, covers rule.root ∧ rule.access = a ∧
        ∀ other ∈ rules, covers other.root → other.key ≤ rule.key := by
  constructor
  · intro h
    obtain ⟨rule, hrule, ha⟩ := Option.map_eq_some_iff.mp h
    obtain ⟨hmem, hcovers, hmax⟩ := governing_spec hrule
    exact ⟨rule, hmem, hcovers, ha, hmax⟩
  · rintro ⟨rule, hmem, hcovers, rfl, hmax⟩
    obtain ⟨top, htop⟩ := exists_governing hmem hcovers
    obtain ⟨htopMem, htopCovers, htopMax⟩ := governing_spec htop
    have hkey : top.key = rule.key :=
      le_antisymm (hmax top htopMem htopCovers) (htopMax rule hmem hcovers)
    have haccess : top.access = rule.access := congrArg (fun k => (ofLex k).2) hkey
    simp [htop, haccess]

/-- Only the set of rules matters. -/
theorem governing_access_congr (h : ∀ rule, rule ∈ rules ↔ rule ∈ rules') :
    (governing covers rules).map access = (governing covers rules').map access := by
  ext a
  simp only [governing_access_eq_some_iff, h]

end Rule

end Codex
