import Codex.ExecPolicy.Policy

/-!
# The policy without its allow rules

For some models the rules that allow a command by its prefix are ignored.  The policy then keeps
the other rules and the host-executable entries, so that a command may be matched in a later tier
than before.  It cannot get a weaker decision that way than a rule gave it: the rule that asked or
forbade is kept, in the same tier, and no tier before that one matches more than it did.

`ignoreAllowRules_as_strict` goes through the tiers (`matchesForCommand_cases`): in each of them
the matches that are left are those of the kept rules (`matchExactRules_ignore`,
`matchHostExecutableRules_ignore`).
-/

namespace Codex.ExecPolicy

open List

inductive AllowPrefixRules where
  | honor
  | ignoreForCyberModel
  deriving DecidableEq, Repr

/-- `is_policy_match`. -/
def RuleMatch.isPolicyMatch : RuleMatch → Bool
  | prefixRuleMatch _ _ _ _ => true
  | heuristicsRuleMatch _ _ => false

namespace Policy

def currentForPrefixRules (policy : Policy) : AllowPrefixRules → Policy
  | .honor => policy
  | .ignoreForCyberModel =>
    { policy with
      rulesByProgram := ⟨policy.rulesByProgram.entries.filter fun entry =>
        entry.2.decision ≠ .allow⟩ }

abbrev withoutAllowRules (policy : Policy) : Policy :=
  policy.currentForPrefixRules .ignoreForCyberModel

variable (policy : Policy) (process : AbsolutePathBuf.Process) (commands : List (List Str))

def checkMultipleWithOptions (heuristicsFallback : List Str → Decision) (options : MatchOptions) :
    Option Evaluation :=
  Evaluation.fromMatches (commands.flatMap fun command =>
    policy.matchesForCommandWithOptions process command (some heuristicsFallback) options)

/-- Whether the commands run outside of the sandbox, once they are allowed. -/
def bypassSandbox (options : MatchOptions) : Bool :=
  commands.all fun command =>
    (policy.matchesForCommandWithOptions process command none options).any fun ruleMatch =>
      ruleMatch.isPolicyMatch && ruleMatch.decision = .allow

variable {policy : Policy} {process : AbsolutePathBuf.Process} {cmd : List Str}
  {heuristicsFallback : Option (List Str → Decision)} {ruleMatch : RuleMatch}

/-- A match comes from one of the two tiers or from the fallback. -/
theorem matchesForCommand_cases
    (h : ruleMatch ∈ policy.matchesForCommandWithOptions process cmd heuristicsFallback ⟨true⟩) :
    ruleMatch ∈ policy.matchExactRules cmd ∨
      (policy.matchExactRules cmd = [] ∧ ruleMatch ∈ policy.matchHostExecutableRules process cmd) ∨
      ruleMatch.isPolicyMatch = false := by
  simp only [matchesForCommandWithOptions, if_true] at h
  split at h
  · rw [mem_singleton.mp h]
    exact .inr (.inr rfl)
  · split_ifs at h with hexact
    · exact .inl h
    · exact .inr (.inl ⟨not_not.mp hexact, h⟩)

/-! ## What is kept -/

theorem matches_decision {rule : PrefixRule} (h : rule.matches cmd = some ruleMatch) :
    ruleMatch.decision = rule.decision := by
  obtain ⟨matched, -, rfl⟩ := Option.map_eq_some_iff.mp h
  rfl

/-- The matches of a program's rules, but for those that allow. -/
theorem filterMap_getVec (program : Str) :
    (policy.withoutAllowRules.rulesByProgram.getVec program).filterMap
        (fun rule => rule.matches cmd) =
      ((policy.rulesByProgram.getVec program).filterMap fun rule => rule.matches cmd).filter
        fun ruleMatch => ruleMatch.decision ≠ .allow := by
  have hrules : policy.withoutAllowRules.rulesByProgram.getVec program =
      (policy.rulesByProgram.getVec program).filter fun rule => rule.decision ≠ .allow := by
    simp [currentForPrefixRules, MultiMap.getVec, filter_map, filter_filter,
      Function.comp_def, Bool.and_comm]
  rw [hrules]
  induction policy.rulesByProgram.getVec program with
  | nil => rfl
  | cons rule rules ih =>
    cases hmatch : rule.matches cmd with
    | none => by_cases hallow : rule.decision = .allow <;> simpa [hmatch, hallow] using ih
    | some found =>
      have hdecision := matches_decision hmatch
      by_cases hallow : rule.decision = .allow <;>
        simpa [hmatch, hallow, hdecision] using ih

theorem matchExactRules_ignore :
    policy.withoutAllowRules.matchExactRules cmd =
      (policy.matchExactRules cmd).filter fun ruleMatch => ruleMatch.decision ≠ .allow := by
  cases cmd with
  | nil => rfl
  | cons first rest => exact filterMap_getVec first

theorem matchHostExecutableRules_ignore :
    policy.withoutAllowRules.matchHostExecutableRules process cmd =
      (policy.matchHostExecutableRules process cmd).filter fun ruleMatch =>
        ruleMatch.decision ≠ .allow := by
  have hresolved : ∀ (program : AbsolutePathBuf) (found : RuleMatch),
      (found.withResolvedProgram program).decision = found.decision := by
    intro program found
    cases found <;> rfl
  unfold matchHostExecutableRules
  split
  · next program basename hresolve =>
    have hpermits : policy.withoutAllowRules.permits basename program =
        policy.permits basename program := rfl
    rw [hpermits, matchBasenameRules, matchBasenameRules, filterMap_getVec]
    split_ifs
    · rw [filter_map]
      simp only [Function.comp_def, hresolved]
    · rfl
  · rfl

theorem ne_allow_of_mem_ignore
    (h : ruleMatch ∈ policy.withoutAllowRules.matchesForCommandWithOptions process cmd
      heuristicsFallback ⟨true⟩) :
    ¬ (ruleMatch.isPolicyMatch = true ∧ ruleMatch.decision = .allow) := by
  rintro ⟨hrule, hallow⟩
  rcases matchesForCommand_cases h with hexact | ⟨-, hhost⟩ | hheuristics
  · rw [matchExactRules_ignore] at hexact
    simpa [hallow] using (mem_filter.mp hexact).2
  · rw [matchHostExecutableRules_ignore] at hhost
    simpa [hallow] using (mem_filter.mp hhost).2
  · rw [hrule] at hheuristics
    cases hheuristics

/-- Without the allow rules no command gets a weaker decision than the one that a rule which asks
or forbids gave it, on its own and among other commands; no rule match allows anything, and no
list of commands leaves the sandbox. -/
theorem ignoreAllowRules_as_strict (policy : Policy) (process : AbsolutePathBuf.Process)
    (commands : List (List Str)) (fallback : List Str → Decision) :
    (∀ cmd ∈ commands, ∀ evaluation,
      policy.checkWithOptions process cmd fallback ⟨true⟩ = some evaluation →
      (∃ ruleMatch ∈ evaluation.matchedRules, ruleMatch.isPolicyMatch = true ∧
        ruleMatch.decision = evaluation.decision) → evaluation.decision ≠ .allow →
      (∃ own, policy.withoutAllowRules.checkWithOptions process cmd fallback ⟨true⟩ = some own ∧
          evaluation.decision ≤ own.decision) ∧
        ∃ all, policy.withoutAllowRules.checkMultipleWithOptions process commands fallback ⟨true⟩ =
          some all ∧ evaluation.decision ≤ all.decision) ∧
    (∀ cmd ∈ commands, ∀ heuristicsFallback, ∀ ruleMatch ∈
      policy.withoutAllowRules.matchesForCommandWithOptions process cmd heuristicsFallback ⟨true⟩,
      ¬ (ruleMatch.isPolicyMatch = true ∧ ruleMatch.decision = .allow)) ∧
    (commands ≠ [] → policy.withoutAllowRules.bypassSandbox process commands ⟨true⟩ = false) := by
  refine ⟨?_, fun cmd _ heuristicsFallback found hfound => ne_allow_of_mem_ignore hfound, ?_⟩
  · rintro cmd hcmd evaluation hcheck ⟨found, hfound, hrule, hdecision⟩ hstrict
    have hmatched : evaluation.matchedRules =
        policy.matchesForCommandWithOptions process cmd (some fallback) ⟨true⟩ := by
      obtain ⟨decision, -, rfl⟩ := Option.map_eq_some_iff.mp hcheck
      rfl
    rw [hmatched] at hfound
    rw [← hdecision] at hstrict ⊢
    have hkept : found ∈ policy.withoutAllowRules.matchesForCommandWithOptions process cmd
        (some fallback) ⟨true⟩ := by
      rcases matchesForCommand_cases hfound with hexact | ⟨hexact, hhost⟩ | hheuristics
      · have hkept : found ∈ policy.withoutAllowRules.matchExactRules cmd := by
          rw [matchExactRules_ignore]
          exact mem_filter.mpr ⟨hexact, by simpa using hstrict⟩
        rwa [matchesForCommand_of_exact _ _ _ (ne_nil_of_mem hkept)]
      · have hkept : found ∈ policy.withoutAllowRules.matchHostExecutableRules process cmd := by
          rw [matchHostExecutableRules_ignore]
          exact mem_filter.mpr ⟨hhost, by simpa using hstrict⟩
        rwa [matchesForCommand_of_host _ _ _ (by rw [matchExactRules_ignore, hexact]; rfl)
          (ne_nil_of_mem hkept)]
      · rw [hrule] at hheuristics
        cases hheuristics
    exact ⟨exists_fromMatches hkept, exists_fromMatches (mem_flatMap.mpr ⟨cmd, hcmd, hkept⟩)⟩
  · intro hne
    obtain ⟨cmd, hcmd⟩ := exists_mem_of_ne_nil commands hne
    refine all_eq_false.mpr ⟨cmd, hcmd, fun hany => ?_⟩
    obtain ⟨found, hfound, hallow⟩ := any_eq_true.mp hany
    exact ne_allow_of_mem_ignore hfound (by simpa using hallow)

end Policy

end Codex.ExecPolicy
