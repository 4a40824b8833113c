import Codex.Path.AbsolutePath
import Mathlib.Data.Finmap

/-!
# Execution policies

A policy decides whether a command may run.  Its prefix rules are kept by program:
a command is first matched against the rules of its first word as it is written,
and only when none of them matches is the word resolved to an absolute path and
matched by its file name, provided the host-executable entry of that name, if
there is one, lists the path.

A managed requirement is laid over the policy of the user by `mergeOverlay`.  It is
said exactly when the merged policy is at least as strict as the requirement alone:
the first of the two tiers can hide a requirement that matches in the second, and an
entry of the user can close the gate of the second tier.  The network rules of the
requirement come last, and the last one of a host decides.

* `mergeOverlay_as_strict_iff` is exact; `mergeOverlay_weakens_requirement` has both ways in which
  a requirement is weakened.
* `compiledNetworkDomains_mergeOverlay`: the compiled lists are settled by the last decision about
  a host (`settles_compiledNetworkDomains`).
-/

namespace Codex.ExecPolicy

open List AbsolutePathBuf

/-! ## Decisions -/

inductive Decision where
  | allow
  | prompt
  | forbidden
  deriving DecidableEq, Repr

/-- Decisions by strictness. -/
def Decision.rank : Decision → ℕ
  | .allow => 0
  | .prompt => 1
  | .forbidden => 2

instance : LinearOrder Decision :=
  LinearOrder.lift' Decision.rank (by rintro ⟨⟩ ⟨⟩ h <;> simp_all [Decision.rank])

/-! ## Rules -/

inductive PatternToken where
  | single (expected : Str)
  | alts (alternatives : List Str)
  deriving DecidableEq, Repr

def PatternToken.matches (pattern : PatternToken) (token : Str) : Bool :=
  match pattern with
  | .single expected => expected = token
  | .alts alternatives => alternatives.any fun alt => alt = token

structure PrefixPattern where
  first : Str
  rest : List PatternToken
  deriving DecidableEq, Repr

/-- The words of the command that the pattern covers, if it matches. -/
def PrefixPattern.matchesPrefix (pattern : PrefixPattern) (cmd : List Str) : Option (List Str) :=
  let patternLength := pattern.rest.length + 1
  if cmd.length < patternLength ∨ cmd.head? ≠ some pattern.first then none
  else if (pattern.rest.zip cmd.tail).all fun pair => pair.1.matches pair.2 then
    some (cmd.take patternLength)
  else none

inductive RuleMatch where
  | prefixRuleMatch (matchedPrefix : List Str) (decision : Decision)
      (resolvedProgram : Option AbsolutePathBuf) (justification : Option Str)
  | heuristicsRuleMatch (command : List Str) (decision : Decision)
  deriving DecidableEq

namespace RuleMatch

def decision : RuleMatch → Decision
  | prefixRuleMatch _ decision _ _ => decision
  | heuristicsRuleMatch _ decision => decision

def withResolvedProgram (program : AbsolutePathBuf) : RuleMatch → RuleMatch
  | prefixRuleMatch matchedPrefix decision _ justification =>
    prefixRuleMatch matchedPrefix decision (some program) justification
  | other => other

end RuleMatch

structure PrefixRule where
  pattern : PrefixPattern
  decision : Decision
  justification : Option Str
  deriving DecidableEq, Repr

def PrefixRule.matches (rule : PrefixRule) (cmd : List Str) : Option RuleMatch :=
  (rule.pattern.matchesPrefix cmd).map fun matchedPrefix =>
    .prefixRuleMatch matchedPrefix rule.decision none rule.justification

inductive NetworkRuleProtocol where
  | http
  | https
  | socks5Tcp
  | socks5Udp
  deriving DecidableEq, Repr

structure NetworkRule where
  host : Str
  protocol : NetworkRuleProtocol
  decision : Decision
  justification : Option Str
  deriving DecidableEq, Repr

/-! ## Policies -/

/-- A `MultiMap`, by its entries in the order they were inserted.  Its iteration
order over the keys is not specified, and nothing below depends on it. -/
structure MultiMap (K V : Type) where
  entries : List (K × V)

namespace MultiMap

variable {K V : Type}

def insert (map : MultiMap K V) (key : K) (value : V) : MultiMap K V :=
  ⟨map.entries ++ [(key, value)]⟩

/-- `get_vec`, with the empty list for a key that has no values. -/
def getVec [DecidableEq K] (map : MultiMap K V) (key : K) : List V :=
  (map.entries.filter fun entry => entry.1 = key).map Prod.snd

@[simp] theorem getVec_insert [DecidableEq K] (map : MultiMap K V) (key other : K) (value : V) :
    (map.insert key value).getVec other =
      map.getVec other ++ if key = other then [value] else [] := by
  unfold getVec insert
  by_cases h : key = other <;> simp [h]

/-- Inserting the values of another map puts them after the values there were. -/
theorem getVec_foldl_insert [DecidableEq K] (map : MultiMap K V) (entries : List (K × V))
    (key : K) :
    (entries.foldl (fun map entry => map.insert entry.1 entry.2) map).getVec key =
      map.getVec key ++ (⟨entries⟩ : MultiMap K V).getVec key := by
  induction entries generalizing map with
  | nil => simp [getVec]
  | cons entry rest ih =>
    rw [foldl_cons, ih, getVec_insert]
    by_cases h : entry.1 = key <;> simp [getVec, h]

end MultiMap

structure Policy where
  rulesByProgram : MultiMap Str PrefixRule
  networkRules : List NetworkRule
  hostExecutablesByName : Finmap fun _ : Str => List AbsolutePathBuf

structure MatchOptions where
  resolveHostExecutables : Bool

structure Evaluation where
  decision : Decision
  matchedRules : List RuleMatch
  deriving DecidableEq

/-- `Evaluation::from_matches`; `none` is the panic on an empty list. -/
def Evaluation.fromMatches (matchedRules : List RuleMatch) : Option Evaluation :=
  (matchedRules.map RuleMatch.decision).max?.map fun decision => ⟨decision, matchedRules⟩

namespace Policy

def mergeOverlay (policy overlay : Policy) : Policy where
  rulesByProgram :=
    overlay.rulesByProgram.entries.foldl (fun rules entry => rules.insert entry.1 entry.2)
      policy.rulesByProgram
  networkRules := policy.networkRules ++ overlay.networkRules
  hostExecutablesByName := overlay.hostExecutablesByName ∪ policy.hostExecutablesByName

def matchExactRules (policy : Policy) (cmd : List Str) : List RuleMatch :=
  match cmd with
  | [] => []
  | first :: _ => (policy.rulesByProgram.getVec first).filterMap fun rule => rule.matches cmd

/-- The absolute path of the program of a command, and the name it is looked up by. -/
def resolveProgram (process : AbsolutePathBuf.Process) (cmd : List Str) :
    Option (AbsolutePathBuf × Str) := do
  let first ← cmd.head?
  let program ← AbsolutePathBuf.fromAbsolutePath process first
  let basename ← program.fileName
  return (program, basename)

/-- The host-executable entry of a name, if there is one, lists the program. -/
def permits (policy : Policy) (basename : Str) (program : AbsolutePathBuf) : Bool :=
  match policy.hostExecutablesByName.lookup basename with
  | some paths => paths.any fun path => path = program
  | none => true

/-- The rules of a file name that match, whatever the host-executable entries say. -/
def matchBasenameRules (policy : Policy) (program : AbsolutePathBuf) (basename : Str)
    (cmd : List Str) : List RuleMatch :=
  ((policy.rulesByProgram.getVec basename).filterMap fun rule =>
    rule.matches (basename :: cmd.tail)).map (RuleMatch.withResolvedProgram program)

variable (policy : Policy) (process : Process) (cmd : List Str)

def matchHostExecutableRules : List RuleMatch :=
  match resolveProgram process cmd with
  | some (program, basename) =>
    if policy.permits basename program then policy.matchBasenameRules program basename cmd
    else []
  | none => []

/-- The matches of the first tier that has one, and else the fallback. -/
def matchesForCommandWithOptions (heuristicsFallback : Option (List Str → Decision))
    (options : MatchOptions) : List RuleMatch :=
  let matchedRules :=
    if policy.matchExactRules cmd ≠ [] then policy.matchExactRules cmd
    else if options.resolveHostExecutables then policy.matchHostExecutableRules process cmd
    else []
  match matchedRules, heuristicsFallback with
  | [], some fallback => [.heuristicsRuleMatch cmd (fallback cmd)]
  | matchedRules, _ => matchedRules

open Evaluation

def checkWithOptions (heuristicsFallback : List Str → Decision) (options : MatchOptions) :
    Option Evaluation :=
  fromMatches (policy.matchesForCommandWithOptions process cmd (some heuristicsFallback) options)

/-! ## What a merged policy matches -/

variable (policy overlay : Policy) (process : Process) (cmd : List Str)

theorem getVec_mergeOverlay (program : Str) :
    (policy.mergeOverlay overlay).rulesByProgram.getVec program =
      policy.rulesByProgram.getVec program ++ overlay.rulesByProgram.getVec program :=
  MultiMap.getVec_foldl_insert _ _ _

theorem matchExactRules_mergeOverlay :
    (policy.mergeOverlay overlay).matchExactRules cmd =
      policy.matchExactRules cmd ++ overlay.matchExactRules cmd := by
  cases cmd with
  | nil => rfl
  | cons first rest =>
    simp only [matchExactRules, getVec_mergeOverlay, filterMap_append]

/-- An entry of the overlay replaces the one there was. -/
theorem permits_mergeOverlay (basename : Str) (program : AbsolutePathBuf) :
    (policy.mergeOverlay overlay).permits basename program =
      if basename ∈ overlay.hostExecutablesByName then overlay.permits basename program
      else policy.permits basename program := by
  unfold permits mergeOverlay
  split_ifs with h
  · rw [Finmap.lookup_union_left h]
  · rw [Finmap.lookup_union_right h]

/-! ## Decisions of a policy -/

/-- A decision is at most the one of an evaluation when some matched rule reaches it. -/
theorem le_decision_iff {matchedRules : List RuleMatch} {evaluation : Evaluation}
    (h : fromMatches matchedRules = some evaluation) (decision : Decision) :
    decision ≤ evaluation.decision ↔ ∃ ruleMatch ∈ matchedRules, decision ≤ ruleMatch.decision := by
  obtain ⟨strictest, hmax, rfl⟩ := Option.map_eq_some_iff.mp h
  obtain ⟨hmem, hle⟩ := max?_eq_some_iff.mp hmax
  obtain ⟨ruleMatch, hrule, rfl⟩ := mem_map.mp hmem
  constructor
  · exact fun hdecision => ⟨ruleMatch, hrule, hdecision⟩
  · rintro ⟨other, hother, hdecision⟩
    exact hdecision.trans (hle _ (mem_map_of_mem hother))

theorem exists_fromMatches {matchedRules : List RuleMatch} {ruleMatch : RuleMatch}
    (h : ruleMatch ∈ matchedRules) : ∃ evaluation,
      fromMatches matchedRules = some evaluation ∧ ruleMatch.decision ≤ evaluation.decision := by
  cases hmax : (matchedRules.map RuleMatch.decision).max? with
  | none =>
    rw [max?_eq_none_iff, map_eq_nil_iff] at hmax
    exact absurd h (hmax ▸ not_mem_nil)
  | some decision =>
    have heval : fromMatches matchedRules = some ⟨decision, matchedRules⟩ := by
      rw [fromMatches, hmax]
      rfl
    exact ⟨_, heval, (le_decision_iff heval _).mpr ⟨ruleMatch, h, le_rfl⟩⟩

/-- With a fallback there is always a match, so that `from_matches` never panics. -/
theorem exists_checkWithOptions (fallback : List Str → Decision) (options : MatchOptions) :
    ∃ evaluation, policy.checkWithOptions process cmd fallback options = some evaluation := by
  have hne : policy.matchesForCommandWithOptions process cmd (some fallback) options ≠ [] := by
    unfold matchesForCommandWithOptions
    dsimp only
    split
    · exact cons_ne_nil _ _
    · next hother => exact fun hnil => hother fallback hnil rfl
  obtain ⟨ruleMatch, hmatch⟩ := exists_mem_of_ne_nil _ hne
  obtain ⟨evaluation, heval, -⟩ := exists_fromMatches hmatch
  exact ⟨evaluation, heval⟩

/-- The matches, tier by tier, when host executables are resolved. -/
theorem matchesForCommand_of_exact {heuristicsFallback : Option (List Str → Decision)}
    (h : policy.matchExactRules cmd ≠ []) :
    policy.matchesForCommandWithOptions process cmd heuristicsFallback ⟨true⟩ =
      policy.matchExactRules cmd := by
  unfold matchesForCommandWithOptions
  simp only [if_pos h]
  split
  · next hnil => exact absurd hnil h
  · rfl

section

variable (hexact : policy.matchExactRules cmd = [])
include hexact

theorem matchesForCommand_of_host {heuristicsFallback : Option (List Str → Decision)}
    (hhost : policy.matchHostExecutableRules process cmd ≠ []) :
    policy.matchesForCommandWithOptions process cmd heuristicsFallback ⟨true⟩ =
      policy.matchHostExecutableRules process cmd := by
  unfold matchesForCommandWithOptions
  simp only [if_neg (not_not.mpr hexact)]
  split
  · next hnil => exact absurd hnil hhost
  · rfl

theorem matchesForCommand_without_fallback :
    policy.matchesForCommandWithOptions process cmd none ⟨true⟩ =
      policy.matchHostExecutableRules process cmd := by
  simp only [matchesForCommandWithOptions, if_neg (not_not.mpr hexact)]
  cases policy.matchHostExecutableRules process cmd <;> rfl

end

/-! ## Requirements over the policy of a user -/

/-- Nothing of the user stands in the way of the requirement: it matches the
command as it is written, or each of its matches by file name survives.  When the
user has rules for the command as it is written, these alone decide, and one of
them has to be as strict.  When there are none, the entry of the user for the file
name must not close the gate that the requirement leaves open, or the fallback has
to be as strict. -/
def Unweakened (user requirement : Policy) (process : AbsolutePathBuf.Process) (cmd : List Str)
    (fallback : List Str → Decision) : Prop :=
  requirement.matchExactRules cmd ≠ [] ∨
    ∀ ruleMatch ∈ requirement.matchHostExecutableRules process cmd,
      if user.matchExactRules cmd = [] then
        ∀ program basename, resolveProgram process cmd = some (program, basename) →
          basename ∈ requirement.hostExecutablesByName ∨
            user.permits basename program = true ∨ ruleMatch.decision ≤ fallback cmd
      else ∃ own ∈ user.matchExactRules cmd, ruleMatch.decision ≤ own.decision

/-- The second tier of a merged policy, where neither policy has an exact match. -/
theorem exists_match_by_name_iff {user requirement : Policy} {fallback : List Str → Decision}
    (huser : user.matchExactRules cmd = []) (hrequirement : requirement.matchExactRules cmd = [])
    {ruleMatch : RuleMatch}
    (hmatch : ruleMatch ∈ requirement.matchHostExecutableRules process cmd) :
    (∃ merged ∈ (user.mergeOverlay requirement).matchesForCommandWithOptions process cmd
        (some fallback) ⟨true⟩, ruleMatch.decision ≤ merged.decision) ↔
      ∀ program basename, resolveProgram process cmd = some (program, basename) →
        basename ∈ requirement.hostExecutablesByName ∨
          user.permits basename program = true ∨ ruleMatch.decision ≤ fallback cmd := by
  have hexact : (user.mergeOverlay requirement).matchExactRules cmd = [] := by
    rw [matchExactRules_mergeOverlay, huser, hrequirement, append_nil]
  cases hresolve : resolveProgram process cmd with
  | none =>
    rw [matchHostExecutableRules, hresolve] at hmatch
    exact absurd hmatch not_mem_nil
  | some resolved =>
    obtain ⟨program, basename⟩ := resolved
    simp only [matchHostExecutableRules, hresolve] at hmatch
    split_ifs at hmatch with hpermits
    · by_cases hopen : basename ∈ requirement.hostExecutablesByName ∨
        user.permits basename program = true
      · -- the gate stays open, so the rule of the requirement still matches
        have hmerged : (user.mergeOverlay requirement).permits basename program = true := by
          rw [permits_mergeOverlay]
          split_ifs with hentry
          · exact hpermits
          · exact hopen.resolve_left hentry
        have hhost : ruleMatch ∈
            (user.mergeOverlay requirement).matchHostExecutableRules process cmd := by
          simp only [matchHostExecutableRules, hresolve, if_pos hmerged, matchBasenameRules,
            getVec_mergeOverlay, filterMap_append, map_append]
          exact mem_append_right _ hmatch
        rw [matchesForCommand_of_host _ _ _ hexact (ne_nil_of_mem hhost)]
        constructor
        · rintro - program' basename' heq
          cases heq
          exact hopen.imp_right .inl
        · exact fun _ => ⟨ruleMatch, hhost, le_refl _⟩
      · -- the entry of the user closes the gate
        obtain ⟨hentry, hclosed⟩ := not_or.mp hopen
        have hhost : (user.mergeOverlay requirement).matchHostExecutableRules process cmd = [] := by
          simp only [matchHostExecutableRules, hresolve]
          rw [if_neg]
          rwa [permits_mergeOverlay, if_neg hentry]
        simp only [matchesForCommandWithOptions, if_neg (not_not.mpr hexact), if_true, hhost]
        constructor
        · rintro ⟨merged, hmem, hle⟩ program' basename' heq
          rw [mem_singleton.mp hmem] at hle
          exact .inr (.inr hle)
        · intro hall
          refine ⟨_, mem_singleton_self _, ?_⟩
          exact ((hall program basename rfl).resolve_left hentry).resolve_left hclosed
    · exact absurd hmatch not_mem_nil

/-- The merged policy is at least as strict as every match of the requirement alone
exactly when nothing of the user stands in its way. -/
theorem mergeOverlay_as_strict_iff (user requirement : Policy)
    (process : AbsolutePathBuf.Process) (cmd : List Str) (fallback : List Str → Decision) :
    (∃ evaluation,
      (user.mergeOverlay requirement).checkWithOptions process cmd fallback ⟨true⟩ =
        some evaluation ∧
      ∀ ruleMatch ∈ requirement.matchesForCommandWithOptions process cmd none ⟨true⟩,
        ruleMatch.decision ≤ evaluation.decision) ↔
      Unweakened user requirement process cmd fallback := by
  obtain ⟨evaluation, hcheck⟩ := exists_checkWithOptions (user.mergeOverlay requirement) process
    cmd fallback ⟨true⟩
  -- the evaluation is as strict as the strictest match of the merged policy
  simp only [hcheck, Option.some.injEq, exists_eq_left', le_decision_iff hcheck]
  rw [Unweakened]
  by_cases hrequirement : requirement.matchExactRules cmd = []
  · rw [matchesForCommand_without_fallback _ _ _ hrequirement]
    simp only [ne_eq, hrequirement, not_true_eq_false, false_or]
    refine forall₂_congr fun ruleMatch hmatch => ?_
    split_ifs with huser
    · exact exists_match_by_name_iff process cmd huser hrequirement hmatch
    · have hexact : (user.mergeOverlay requirement).matchExactRules cmd =
          user.matchExactRules cmd := by
        rw [matchExactRules_mergeOverlay, hrequirement, append_nil]
      rw [matchesForCommand_of_exact _ _ _ (hexact ▸ huser), hexact]
  · simp only [ne_eq, hrequirement, not_false_eq_true, true_or, iff_true]
    rw [matchesForCommand_of_exact _ _ _ hrequirement]
    intro ruleMatch hmatch
    have hmerged : ruleMatch ∈ (user.mergeOverlay requirement).matchExactRules cmd := by
      rw [matchExactRules_mergeOverlay]
      exact mem_append_right _ hmatch
    rw [matchesForCommand_of_exact _ _ _ (ne_nil_of_mem hmerged)]
    exact ⟨ruleMatch, hmerged, le_refl _⟩

/-- A rule of the user for the path of a program hides the requirement that forbids
the program by its name; so does an entry of the user that does not list the path,
when the fallback allows the command. -/
theorem mergeOverlay_weakens_requirement :
    let rm : PrefixRule := ⟨⟨"rm".toList, []⟩, .forbidden, none⟩
    let binRm : PrefixRule := ⟨⟨"/bin/rm".toList, []⟩, .allow, none⟩
    let requirement : Policy := ⟨⟨[("rm".toList, rm)]⟩, [], ∅⟩
    let ruleOfUser : Policy := ⟨⟨[("/bin/rm".toList, binRm)]⟩, [], ∅⟩
    let entryOfUser : Policy := ⟨⟨[]⟩, [], Finmap.singleton "rm".toList []⟩
    let cmd := ["/bin/rm".toList]
    let decide := fun policy : Policy =>
      (policy.checkWithOptions ⟨none, none⟩ cmd (fun _ => .allow) ⟨true⟩).map Evaluation.decision
    decide requirement = some .forbidden ∧
      decide (ruleOfUser.mergeOverlay requirement) = some .allow ∧
      decide (entryOfUser.mergeOverlay requirement) = some .allow := by
  decide

/-! ## Network domains -/

def upsertDomain (entries : List Str) (host : Str) : List Str :=
  entries.filter (· ≠ host) ++ [host]

/-- One round of `compiled_network_domains` over the allowed and the denied hosts. -/
def compileNetworkRule (domains : List Str × List Str) (rule : NetworkRule) : List Str × List Str :=
  match rule.decision with
  | .allow => (upsertDomain domains.1 rule.host, domains.2.filter (· ≠ rule.host))
  | .forbidden => (domains.1.filter (· ≠ rule.host), upsertDomain domains.2 rule.host)
  | .prompt => domains

def compiledNetworkDomains (policy : Policy) : List Str × List Str :=
  policy.networkRules.foldl compileNetworkRule ([], [])

/-- What the last rule of a host decides, among those that do not prompt. -/
def lastDecision (rules : List NetworkRule) (host : Str) : Option Decision :=
  (rules.reverse.find? fun rule => host = rule.host ∧ rule.decision ≠ .prompt).map
    NetworkRule.decision

theorem lastDecision_append (rules more : List NetworkRule) (host : Str) :
    lastDecision (rules ++ more) host = (lastDecision more host).or (lastDecision rules host) := by
  rw [lastDecision, reverse_append, find?_append, Option.map_or]
  rfl

/-- The domains hold each host on the side its last rule decides, and only once. -/
structure Settles (rules : List NetworkRule) (domains : List Str × List Str) : Prop where
  mem_allowed_iff : ∀ host, host ∈ domains.1 ↔ lastDecision rules host = some .allow
  mem_denied_iff : ∀ host, host ∈ domains.2 ↔ lastDecision rules host = some .forbidden
  nodup_allowed : domains.1.Nodup
  nodup_denied : domains.2.Nodup

@[simp] theorem mem_upsertDomain {entries : List Str} {host other : Str} :
    other ∈ upsertDomain entries host ↔ other ∈ entries ∨ other = host := by
  by_cases h : other = host <;> simp [upsertDomain, h]

theorem nodup_upsertDomain {entries : List Str} (h : entries.Nodup) (host : Str) :
    (upsertDomain entries host).Nodup := by
  simp [upsertDomain, nodup_append, h.filter]

theorem Settles.concat {rules : List NetworkRule} {domains : List Str × List Str}
    (h : Settles rules domains) (rule : NetworkRule) :
    Settles (rules ++ [rule]) (compileNetworkRule domains rule) := by
  have hlast : ∀ host, lastDecision (rules ++ [rule]) host =
      if host = rule.host ∧ rule.decision ≠ .prompt then some rule.decision
      else lastDecision rules host := by
    intro host
    rw [lastDecision_append]
    by_cases hrule : host = rule.host ∧ rule.decision ≠ .prompt <;>
      simp [lastDecision, hrule]
  obtain ⟨hallowed, hdenied, hnodup, hnodup'⟩ := h
  unfold compileNetworkRule
  cases hdecision : rule.decision with
  | allow =>
    refine ⟨fun host => ?_, fun host => ?_, nodup_upsertDomain hnodup _, hnodup'.filter _⟩ <;>
      by_cases hhost : host = rule.host <;>
      simp [hlast, hdecision, hallowed, hdenied, hhost]
  | forbidden =>
    refine ⟨fun host => ?_, fun host => ?_, hnodup.filter _, nodup_upsertDomain hnodup' _⟩ <;>
      by_cases hhost : host = rule.host <;>
      simp [hlast, hdecision, hallowed, hdenied, hhost]
  | prompt => exact ⟨by simpa [hlast, hdecision], by simpa [hlast, hdecision], hnodup, hnodup'⟩

theorem settles_compiledNetworkDomains (policy : Policy) :
    Settles policy.networkRules policy.compiledNetworkDomains := by
  unfold compiledNetworkDomains
  induction policy.networkRules using List.reverseRecOn with
  | nil => exact ⟨by simp [lastDecision], by simp [lastDecision], nodup_nil, nodup_nil⟩
  | append_singleton rules rule ih =>
    rw [foldl_concat]
    exact ih.concat rule

/-- Whatever rules the user has, a host that the requirement forbids last is denied. -/
theorem compiledNetworkDomains_mergeOverlay (user requirement : Policy) :
    let rules := user.networkRules ++ requirement.networkRules
    let domains := (user.mergeOverlay requirement).compiledNetworkDomains
    (∀ host, (host ∈ domains.2 ↔ lastDecision rules host = some .forbidden) ∧
      (host ∈ domains.1 ↔ lastDecision rules host = some .allow) ∧
      (lastDecision requirement.networkRules host = some .forbidden →
        host ∈ domains.2 ∧ host ∉ domains.1)) ∧
      domains.1.Disjoint domains.2 ∧ domains.1.Nodup ∧ domains.2.Nodup := by
  intro rules domains
  obtain ⟨hallowed, hdenied, hnodup, hnodup'⟩ :
    Settles rules domains := settles_compiledNetworkDomains (user.mergeOverlay requirement)
  refine ⟨fun host => ⟨hdenied host, hallowed host, fun hforbidden => ?_⟩, ?_, hnodup, hnodup'⟩
  · rw [hallowed, hdenied, lastDecision_append, hforbidden]
    simp
  · intro host hmem hmem'
    rw [hallowed] at hmem
    rw [hdenied, hmem] at hmem'
    cases hmem'

end Policy

end Codex.ExecPolicy
