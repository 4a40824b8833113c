import Codex.ShellCommand.Executable
import Mathlib.Logic.Relation

/-!
# Dangerous commands

The check of a command looks through the programs that run other commands: `sudo`, `env`,
`trap` and shells that are given a script.  It goes at most `maxDangerousCommandWrapperDepth`
wrappers deep and takes anything deeper for dangerous, so a command that matches at some depth
matches at every greater one (`isSome_matchWithDepth_succ`).  From that, what wraps a command
that matches does match, layer by layer.

`env` reads a word with a `=` as an assignment.  A wrapper that is itself skipped that way is
harmless as long as what it wraps stands behind it, which is why the induction over the layers
carries two facts (`Caught`): the command matches, and so does what `env` leaves of it.

The result is `stack_matches`, by induction on the layers (`caught_wraps` for one of them);
`assigned_shell_escapes` is the command that needs the condition on `=`.
-/

namespace Codex.ShellCommand

open Text List

inductive DangerousCommandMatch where
  | forcedRm
  | other
  deriving DecidableEq

def maxDangerousCommandWrapperDepth : ℕ := 8

/-! The words that the check knows. -/

def rmName : Str := "rm".toList

def sudoName : Str := "sudo".toList

def envName : Str := "env".toList

def trapName : Str := "trap".toList

def dashes : Str := "--".toList

def ignoreFlag : Str := "-i".toList

def ignoreEnvironmentFlag : Str := "--ignore-environment".toList

def rmArgsIncludeForceOption (args : List Str) : Bool :=
  (args.takeWhile (· ≠ dashes)).any fun arg =>
    arg = "--force".toList ||
      match arg with
      | '-' :: flags => flags.head? ≠ some '-' && flags.contains 'f'
      | _ => false

/-- `NAME=VALUE`, the name neither empty nor a flag. -/
def isAssignment (argument : Str) : Bool :=
  let name := argument.takeWhile (· ≠ '=')
  '=' ∈ argument && name ≠ [] && name.head? ≠ some '-'

/-- An argument of `env` that stands before the command. -/
def isEnvArgument (argument : Str) : Bool :=
  argument = ignoreFlag || argument = ignoreEnvironmentFlag || isAssignment argument

/-- What `env` runs. -/
def afterEnvArguments : List Str → Command
  | [] => []
  | argument :: rest =>
    if argument = dashes then rest
    else if isEnvArgument argument then afterEnvArguments rest
    else argument :: rest

def extractBashCommand : Command → Option (Str × Str)
  | [shell, flag, script] =>
    if flag ∈ ["-lc".toList, "-c".toList] ∧
        detectShellType shell ∈ [some .zsh, some .bash, some .sh] then some (shell, script)
    else none
  | _ => none

def parseShellLcLiteralCommands (parsers : Parsers) (command : Command) : Option (List Command) :=
  match extractBashCommand command with
  | some (_, script) => parsers.literalCommands script
  | none => none

section Exec

variable (deeper : Command → Option DangerousCommandMatch)

def dangerousCommandMatchForEnv (args : List Str) : Option DangerousCommandMatch :=
  deeper (afterEnvArguments args)

/-- The operands of `trap`. -/
def trapOperands (args : List Str) : List Str :=
  if args.head? = some dashes then args.tail else args

def dangerousCommandMatchForTrap (args : List Str) : Option DangerousCommandMatch :=
  match trapOperands args with
  | action :: _ =>
    if action.head? = some '-' then none else deeper ["sh".toList, "-c".toList, action]
  | [] => none

/-- The check of a program by its name; `deeper` is the check one wrapper further in. -/
def dangerousCommandMatchForExec (platform : DangerousCommandPlatform) :
    Command → Option DangerousCommandMatch
  | [] => none
  | word :: args =>
    let cmd0 := executableNameLookupKey word platform
    if cmd0 = some rmName ∧ rmArgsIncludeForceOption args then some .forcedRm
    else if cmd0 = some sudoName then deeper args
    else if cmd0 = some envName then dangerousCommandMatchForEnv deeper args
    else if cmd0 = some trapName then dangerousCommandMatchForTrap deeper args
    else none

variable {deeper} {platform : DangerousCommandPlatform} {word : Str}

theorem forExec_sudo (h : executableNameLookupKey word platform = some sudoName) (args : List Str) :
    dangerousCommandMatchForExec deeper platform (word :: args) = deeper args := by
  have hrm : sudoName ≠ rmName := by decide
  simp [dangerousCommandMatchForExec, h, hrm]

theorem forExec_env (h : executableNameLookupKey word platform = some envName) (args : List Str) :
    dangerousCommandMatchForExec deeper platform (word :: args) =
      deeper (afterEnvArguments args) := by
  have hrm : envName ≠ rmName := by decide
  have hsudo : envName ≠ sudoName := by decide
  simp [dangerousCommandMatchForExec, dangerousCommandMatchForEnv, h, hrm, hsudo]

theorem forExec_trap (h : executableNameLookupKey word platform = some trapName) (args : List Str) :
    dangerousCommandMatchForExec deeper platform (word :: args) =
      dangerousCommandMatchForTrap deeper args := by
  have hrm : trapName ≠ rmName := by decide
  have hsudo : trapName ≠ sudoName := by decide
  have henv : trapName ≠ envName := by decide
  simp [dangerousCommandMatchForExec, h, hrm, hsudo, henv]

end Exec

variable (parsers : Parsers) (platform : DangerousCommandPlatform)

/-- The check at a depth: the program itself, the commands of its script, the rules for Windows. -/
def dangerousCommandMatchWithDepth (command : Command) (wrapperDepth : ℕ) :
    Option DangerousCommandMatch :=
  if _h : maxDangerousCommandWrapperDepth < wrapperDepth then some .other
  else
    let deeper := fun command => dangerousCommandMatchWithDepth command (wrapperDepth + 1)
    (dangerousCommandMatchForExec deeper platform command).or
      (((parseShellLcLiteralCommands parsers command).bind fun commands =>
          commands.findSome? deeper).or
        (if platform = .windows ∧ isDangerousCommandWindows parsers command then some .other
          else none))
termination_by maxDangerousCommandWrapperDepth + 1 - wrapperDepth
decreasing_by omega

def dangerousCommandMatchForPlatform (command : Command) : Option DangerousCommandMatch :=
  dangerousCommandMatchWithDepth parsers platform command 0

/-! ## One level deeper -/

section Mono

variable {f g : Command → Option DangerousCommandMatch}
  (hfg : ∀ command, (f command).isSome → (g command).isSome)

include hfg

theorem isSome_forTrap_mono {args : List Str} (h : (dangerousCommandMatchForTrap f args).isSome) :
    (dangerousCommandMatchForTrap g args).isSome := by
  unfold dangerousCommandMatchForTrap at h ⊢
  split at h
  · next action rest hoperands =>
      split_ifs at h with hflag
      · simp at h
      · simpa [hoperands, hflag] using hfg _ h
  · simp at h

theorem isSome_forExec_mono {command : Command}
    (h : (dangerousCommandMatchForExec f platform command).isSome) :
    (dangerousCommandMatchForExec g platform command).isSome := by
  cases command with
  | nil => simp [dangerousCommandMatchForExec] at h
  | cons word args =>
    simp only [dangerousCommandMatchForExec] at h ⊢
    split_ifs at h ⊢
    · rfl
    · exact hfg _ h
    · exact hfg _ h
    · exact isSome_forTrap_mono hfg h
    · simp at h

end Mono

variable {parsers platform}

variable {command : Command}

theorem matchWithDepth_of_lt {depth : ℕ} (h : maxDangerousCommandWrapperDepth < depth) :
    dangerousCommandMatchWithDepth parsers platform command depth = some .other := by
  rw [dangerousCommandMatchWithDepth, dif_pos h]

/-- What matches within the limit, it matches by the program, by a script or by the rules of
Windows. -/
theorem isSome_matchWithDepth_iff {depth : ℕ} (h : depth ≤ maxDangerousCommandWrapperDepth) :
    (dangerousCommandMatchWithDepth parsers platform command depth).isSome ↔
      (dangerousCommandMatchForExec
          (fun command => dangerousCommandMatchWithDepth parsers platform command (depth + 1))
          platform command).isSome ∨
        (∃ commands, parseShellLcLiteralCommands parsers command = some commands ∧
          ∃ inner ∈ commands,
            (dangerousCommandMatchWithDepth parsers platform inner (depth + 1)).isSome) ∨
        (platform = .windows ∧ isDangerousCommandWindows parsers command = true) := by
  rw [dangerousCommandMatchWithDepth, dif_neg (by omega)]
  simp only [Option.isSome_or, Bool.or_eq_true]
  refine or_congr_right (or_congr ?_ ?_)
  · cases parseShellLcLiteralCommands parsers command with
    | none => simp
    | some commands => simp [findSome?_isSome_iff]
  · split_ifs with hwindows
    · simpa using hwindows
    · simpa using hwindows

theorem isSome_matchWithDepth_succ {depth : ℕ}
    (h : (dangerousCommandMatchWithDepth parsers platform command depth).isSome) :
    (dangerousCommandMatchWithDepth parsers platform command (depth + 1)).isSome := by
  -- by induction on the levels that are left below the limit
  induction hlevels : maxDangerousCommandWrapperDepth + 1 - depth generalizing depth command with
  | zero => rw [matchWithDepth_of_lt (by omega)]; rfl
  | succ levels ih =>
    by_cases hlast : maxDangerousCommandWrapperDepth < depth + 1
    · rw [matchWithDepth_of_lt hlast]; rfl
    · have hdeeper : ∀ inner : Command,
          (dangerousCommandMatchWithDepth parsers platform inner (depth + 1)).isSome →
          (dangerousCommandMatchWithDepth parsers platform inner (depth + 2)).isSome :=
        fun inner hinner => ih hinner (by omega)
      rw [isSome_matchWithDepth_iff (by omega)] at h ⊢
      rcases h with hexec | ⟨commands, hparse, inner, hmem, hinner⟩ | hwindows
      · exact .inl (isSome_forExec_mono platform hdeeper hexec)
      · exact .inr (.inl ⟨commands, hparse, inner, hmem, hdeeper inner hinner⟩)
      · exact .inr (.inr hwindows)

/-! ## What `env` leaves of a command -/

/-- The words that `env` takes for its own although they hold no `=`. -/
def envFlags : List Str := [dashes, ignoreFlag, ignoreEnvironmentFlag]

variable {flag : Str}

section

variable (h : flag ∈ envFlags)
include h

theorem executableNameLookupKey_envFlag (platform : DangerousCommandPlatform) :
    executableNameLookupKey flag platform = some flag := by
  have hall : ∀ flag ∈ envFlags, executableNameLookupKey flag .posix = some flag ∧
      executableNameLookupKey flag .windows = some flag := by decide
  cases platform with
  | posix => exact (hall flag h).1
  | windows => exact (hall flag h).2

theorem executableBasename_envFlag : executableBasename flag = some flag := by
  have hall : ∀ flag ∈ envFlags, executableBasename flag = some flag := by decide
  exact hall flag h

theorem detectShellType_envFlag : detectShellType flag = none := by
  have hall : ∀ flag ∈ envFlags, shellOfName flag = none ∧ fileStem flag = some flag := by decide
  obtain ⟨hname, hstem⟩ := hall flag h
  rw [detectShellType, hname]
  dsimp only
  split
  · next stem hstem' =>
      have heq : stem = flag := Option.some.inj (hstem'.symm.trans hstem)
      rw [heq]
      exact dif_neg (not_not_intro rfl)
  · rfl

theorem isDangerousCommandWindows_envFlag (args : List Str) :
    isDangerousCommandWindows parsers (flag :: args) = false := by
  have hbase := executableBasename_envFlag h
  have hall : ∀ flag ∈ envFlags, isPowershellExecutable flag = false ∧
      isCmdExecutable flag = false ∧ isUrlLauncher flag = false ∧
      isBrowserExecutable flag = false ∧ isRundll flag = false := by decide
  obtain ⟨hpowershell, hcmd, hlauncher, hbrowser, hrundll⟩ := hall flag h
  simp only [isDangerousCommandWindows, isDangerousPowershell, isDangerousCmd, isDirectGuiLaunch,
    hpowershell, hcmd, hbase, hlauncher, hbrowser, hrundll, Bool.false_and, Bool.and_false,
    Bool.or_false]

/-- A flag of `env` is not the program of a command that matches. -/
theorem match_envFlag (args : List Str) :
    ¬(dangerousCommandMatchForPlatform parsers platform (flag :: args)).isSome := by
  have hkey := executableNameLookupKey_envFlag h platform
  have hall : ∀ flag ∈ envFlags, flag ≠ rmName ∧ flag ≠ sudoName ∧
      flag ≠ envName ∧ flag ≠ trapName := by decide
  obtain ⟨hrm, hsudo, henv, htrap⟩ := hall flag h
  rw [dangerousCommandMatchForPlatform, isSome_matchWithDepth_iff (Nat.zero_le _)]
  rintro (hexec | ⟨commands, hparse, -⟩ | ⟨-, hwindows⟩)
  · simp [dangerousCommandMatchForExec, hkey, hrm, hsudo, henv, htrap] at hexec
  · have hextract : extractBashCommand (flag :: args) = none := by
      unfold extractBashCommand
      split
      · next heq =>
          rw [← (List.cons.inj heq).1, detectShellType_envFlag h]
          simp
      · rfl
    simp [parseShellLcLiteralCommands, hextract] at hparse
  · rw [isDangerousCommandWindows_envFlag h] at hwindows
    cases hwindows

end

/-- The program word holds no `=`. -/
def Plain (command : Command) : Prop := ∀ word ∈ command.head?, '=' ∉ word

theorem afterEnvArguments_of_plain
    (hmatch : (dangerousCommandMatchForPlatform parsers platform command).isSome)
    (hplain : Plain command) : afterEnvArguments command = command := by
  cases command with
  | nil => rfl
  | cons word args =>
    have hflag : word ∉ envFlags := fun hmem => match_envFlag hmem args hmatch
    simp only [envFlags, mem_cons, not_mem_nil, or_false, not_or] at hflag
    have hassignment : '=' ∉ word := hplain word rfl
    simp [afterEnvArguments, isEnvArgument, isAssignment, hflag, hassignment]

/-- The arguments of `env` and a closing `--` are all it takes off. -/
theorem afterEnvArguments_append {arguments : List Str}
    (h : ∀ argument ∈ arguments, isEnvArgument argument = true) (rest : List Str) :
    afterEnvArguments (arguments ++ rest) = afterEnvArguments rest := by
  induction arguments with
  | nil => rfl
  | cons argument arguments ih =>
    have hargument := h argument (mem_cons_self ..)
    have hdashes : argument ≠ dashes := by
      rintro rfl
      exact absurd hargument (by decide)
    rw [cons_append, afterEnvArguments, if_neg hdashes, if_pos hargument]
    exact ih fun a ha => h a (mem_cons_of_mem _ ha)

/-! ## Wrappers -/

/-- One wrapper around a command; `scriptWord` is asked of the program words of shells and
traps. -/
inductive Wraps (parsers : Parsers) (platform : DangerousCommandPlatform)
    (scriptWord : Str → Prop) (command : Command) : Command → Prop
  | sudoWord (word : Str) (hword : executableNameLookupKey word platform = some sudoName) :
      Wraps parsers platform scriptWord command (word :: command)
  | envWord (word : Str) (hword : executableNameLookupKey word platform = some envName)
      (arguments : List Str) (harguments : ∀ argument ∈ arguments, isEnvArgument argument = true) :
      Wraps parsers platform scriptWord command (word :: (arguments ++ command))
  | envDashes (word : Str) (hword : executableNameLookupKey word platform = some envName)
      (arguments : List Str) (harguments : ∀ argument ∈ arguments, isEnvArgument argument = true) :
      Wraps parsers platform scriptWord command (word :: (arguments ++ dashes :: command))
  | shell (word flag script : Str) (hscript : scriptWord word) (commands : List Command)
      (hparse : parseShellLcLiteralCommands parsers [word, flag, script] = some commands)
      (hmem : command ∈ commands) :
      Wraps parsers platform scriptWord command [word, flag, script]
  | trap (word : Str) (hword : executableNameLookupKey word platform = some trapName)
      (hscript : scriptWord word) (args rest : List Str) (action : Str)
      (hargs : trapOperands args = action :: rest) (hflag : action.head? ≠ some '-')
      (commands : List Command)
      (hparse : parseShellLcLiteralCommands parsers ["sh".toList, "-c".toList, action] =
        some commands)
      (hmem : command ∈ commands) :
      Wraps parsers platform scriptWord command (word :: args)

/-- A stack of wrappers around a command. -/
def Stack (parsers : Parsers) (platform : DangerousCommandPlatform) (scriptWord : Str → Prop) :
    Command → Command → Prop :=
  Relation.ReflTransGen (Wraps parsers platform scriptWord)

/-- The command matches, and so does what `env` would run of it. -/
structure Caught (parsers : Parsers) (platform : DangerousCommandPlatform) (command : Command) :
    Prop where
  matched : (dangerousCommandMatchForPlatform parsers platform command).isSome
  matchedAfterEnv :
    (dangerousCommandMatchForPlatform parsers platform (afterEnvArguments command)).isSome

theorem Caught.of_plain
    (hmatch : (dangerousCommandMatchForPlatform parsers platform command).isSome)
    (hplain : Plain command) : Caught parsers platform command :=
  ⟨hmatch, by rwa [afterEnvArguments_of_plain hmatch hplain]⟩

/-- A wrapper in front of arguments: `env` skips the word, or else it stays with all behind it. -/
theorem Caught.of_word {word : Str} {args : List Str}
    (hmatch : (dangerousCommandMatchForPlatform parsers platform (word :: args)).isSome)
    (hargs : (dangerousCommandMatchForPlatform parsers platform (afterEnvArguments args)).isSome) :
    Caught parsers platform (word :: args) := by
  refine ⟨hmatch, ?_⟩
  have hdashes : word ≠ dashes := by
    rintro rfl
    exact match_envFlag (mem_cons_self ..) args hmatch
  rw [afterEnvArguments, if_neg hdashes]
  split_ifs
  · exact hargs
  · exact hmatch

theorem match_of_exec (h : (dangerousCommandMatchForExec
      (fun command => dangerousCommandMatchWithDepth parsers platform command 1)
      platform command).isSome) :
    (dangerousCommandMatchForPlatform parsers platform command).isSome :=
  (isSome_matchWithDepth_iff (Nat.zero_le _)).mpr (.inl h)

/-- A script matches with any of its commands. -/
theorem match_of_script {inner : Command} {commands : List Command} {depth : ℕ}
    (hparse : parseShellLcLiteralCommands parsers command = some commands) (hmem : inner ∈ commands)
    (h : (dangerousCommandMatchWithDepth parsers platform inner depth).isSome) :
    (dangerousCommandMatchWithDepth parsers platform command depth).isSome := by
  by_cases hdepth : depth ≤ maxDangerousCommandWrapperDepth
  · rw [isSome_matchWithDepth_iff hdepth]
    exact .inr (.inl ⟨commands, hparse, inner, hmem, isSome_matchWithDepth_succ h⟩)
  · rw [matchWithDepth_of_lt (by omega)]
    rfl

theorem caught_wraps {outer : Command} (h : Caught parsers platform command)
    (hwraps : Wraps parsers platform (fun word => '=' ∉ word) command outer) :
    Caught parsers platform outer := by
  cases hwraps with
  | sudoWord word hword =>
    refine Caught.of_word (match_of_exec ?_) h.matchedAfterEnv
    rw [forExec_sudo hword]
    exact isSome_matchWithDepth_succ h.matched
  | envWord word hword arguments harguments =>
    have hrest : (dangerousCommandMatchForPlatform parsers platform
        (afterEnvArguments (arguments ++ command))).isSome := by
      rw [afterEnvArguments_append harguments]
      exact h.matchedAfterEnv
    refine Caught.of_word (match_of_exec ?_) hrest
    rw [forExec_env hword]
    exact isSome_matchWithDepth_succ hrest
  | envDashes word hword arguments harguments =>
    have hrest : (dangerousCommandMatchForPlatform parsers platform
        (afterEnvArguments (arguments ++ dashes :: command))).isSome := by
      rw [afterEnvArguments_append harguments]
      exact h.matched
    refine Caught.of_word (match_of_exec ?_) hrest
    rw [forExec_env hword]
    exact isSome_matchWithDepth_succ hrest
  | shell word flag script hscript commands hparse hmem =>
    refine Caught.of_plain (match_of_script hparse hmem h.matched) ?_
    simpa [Plain] using hscript
  | trap word hword hscript args rest action hargs hflag commands hparse hmem =>
    refine Caught.of_plain (match_of_exec ?_) (by simpa [Plain] using hscript)
    have hshell := match_of_script hparse hmem (isSome_matchWithDepth_succ h.matched)
    rw [forExec_trap hword, dangerousCommandMatchForTrap, hargs]
    dsimp only
    rw [if_neg hflag]
    exact hshell

/-- What wraps a command that matches does match, however deep, as long as the program words of
the command and of the shells and traps around it hold no `=`; beyond the limit all matches. -/
theorem stack_matches {command outer : Command}
    (hmatch : (dangerousCommandMatchForPlatform parsers platform command).isSome)
    (hplain : Plain command)
    (hstack : Stack parsers platform (fun word => '=' ∉ word) command outer) :
    (dangerousCommandMatchForPlatform parsers platform outer).isSome ∧
      ∀ (any : Command) (depth : ℕ), maxDangerousCommandWrapperDepth < depth →
        dangerousCommandMatchWithDepth parsers platform any depth = some .other := by
  refine ⟨Caught.matched ?_, fun any depth hdepth => matchWithDepth_of_lt hdepth⟩
  induction hstack with
  | refl => exact Caught.of_plain hmatch hplain
  | tail _ hwraps ih => exact caught_wraps ih hwraps

/-- Parsers that find a forced `rm` in every script. -/
def rmParsers : Parsers := ⟨fun _ => some [[rmName, "-f".toList]], fun _ => none, fun _ => none,
  fun _ => none⟩

/-- `env sudo rm -f` -/
theorem stack_matches_env_sudo_rm :
    (dangerousCommandMatchForPlatform rmParsers .posix [rmName, "-f".toList]).isSome ∧
      (dangerousCommandMatchForPlatform rmParsers .posix
        [envName, sudoName, rmName, "-f".toList]).isSome := by
  have hmatch : (dangerousCommandMatchForPlatform rmParsers .posix [rmName, "-f".toList]).isSome :=
    match_of_exec (by decide)
  have hplain : Plain [rmName, "-f".toList] := by simp [Plain, rmName]
  have hsudo : Stack rmParsers .posix (fun word => '=' ∉ word) [rmName, "-f".toList]
      [sudoName, rmName, "-f".toList] := .tail .refl (.sudoWord sudoName (by decide))
  exact ⟨hmatch, (stack_matches hmatch hplain
    (hsudo.tail (.envWord envName (by decide) [] (by simp)))).1⟩

def assignedShell : Str := "a=/bash".toList

theorem extractBashCommand_assignedShell :
    extractBashCommand [assignedShell, "-c".toList, []] = some (assignedShell, []) := by
  have hnames : shellOfName assignedShell = none ∧ fileStem assignedShell = some "bash".toList ∧
      shellOfName "bash".toList = some .bash ∧
      allComponents "bash".toList ≠ allComponents assignedShell := by decide
  have hshell : detectShellType assignedShell = some .bash := by
    rw [detectShellType, hnames.1]
    dsimp only
    split
    · next stem hstem =>
        have heq : stem = "bash".toList := Option.some.inj (hstem.symm.trans hnames.2.1)
        rw [heq, dif_pos hnames.2.2.2, detectShellType, hnames.2.2.1]
    · next hstem => exact absurd (hstem.symm.trans hnames.2.1) (by simp)
  exact if_pos ⟨by decide, by rw [hshell]; decide⟩

/-- A shell whose path holds a `=` is an assignment to `env`, which runs what follows it. -/
theorem assigned_shell_escapes :
    ∃ (parsers : Parsers) (command outer : Command),
      (dangerousCommandMatchForPlatform parsers .posix command).isSome ∧ Plain command ∧
      Stack parsers .posix (fun _ => True) command outer ∧
      dangerousCommandMatchForPlatform parsers .posix outer = none := by
  have hparse : parseShellLcLiteralCommands rmParsers [assignedShell, "-c".toList, []] =
      some [[rmName, "-f".toList]] := by
    rw [parseShellLcLiteralCommands, extractBashCommand_assignedShell]
    rfl
  have hshell : Stack rmParsers .posix (fun _ => True) [rmName, "-f".toList]
      [assignedShell, "-c".toList, []] :=
    .tail .refl (.shell _ _ _ trivial _ hparse (mem_cons_self ..))
  refine ⟨rmParsers, [rmName, "-f".toList], [envName, assignedShell, "-c".toList, []],
    match_of_exec (by decide), by simp [Plain, rmName],
    hshell.tail (.envWord envName (by decide) [] (by simp)), ?_⟩
  have hinner : ¬(dangerousCommandMatchWithDepth rmParsers .posix ["-c".toList, []] 1).isSome := by
    rw [isSome_matchWithDepth_iff (by decide)]
    rintro (hexec | ⟨commands, hcommands, -⟩ | ⟨hwindows, -⟩)
    · exact absurd hexec (by decide)
    · cases hcommands
    · cases hwindows
  rw [← Option.not_isSome_iff_eq_none, dangerousCommandMatchForPlatform,
    isSome_matchWithDepth_iff (Nat.zero_le _)]
  rintro (hexec | ⟨commands, hcommands, -⟩ | ⟨hwindows, -⟩)
  · exact hinner hexec
  · cases hcommands
  · cases hwindows

end Codex.ShellCommand
