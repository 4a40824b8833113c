import Codex.Lib.Text

/-!
# Command lines of Windows

A process is started with one text for all its arguments, and the started program cuts that text
into arguments again.  `argv_to_command_line` must therefore write what the documented rules of
`CommandLineToArgvW` read back; `command_line_read_back` says when it does.

* `splitArgs` states the rules for arguments: backslashes are literal, except in front of a quote,
  where an even number begins or ends a quoted part and an odd number makes the quote literal.
  They read back every argument vector.
* `programName` states the rules for the first argument, in which no backslash is special.  The
  quoter does not know of them, so a first argument with a quote, or one that is quoted and ends
  with a backslash, is not read back.

## Strategy

The quoter holds back a run of backslashes until it knows what follows it, and so does the reader.
`splitArgs_quoteLoop` is by induction on the argument, with the run held back as a parameter: what
the quoter has written so far, read from inside the quotes, is what it was given so far.
`argvToCommandLine_cons` then takes one argument off a command line, and the induction over the
arguments is `splitArgs_argvToCommandLine`.
-/

namespace Codex.WindowsSandbox

open List Text

/-- An argument that would be cut, dropped or misread if it were written as it is. -/
def needsQuotes (arg : Str) : Bool :=
  arg.isEmpty || arg.any fun c => c = ' ' || c = '\t' || c = '\n' || c = '\r' || c = '"'

/-- The loop of `quote_windows_arg`, with what it has written and the backslashes it holds back. -/
def quoteLoop (quoted : Str) (backslashes : ℕ) : Str → Str
  | [] => quoted ++ replicate (backslashes * 2) '\\' ++ ['"']
  | ch :: rest =>
    if ch = '\\' then quoteLoop quoted (backslashes + 1) rest
    else if ch = '"' then
      quoteLoop (quoted ++ replicate (backslashes * 2 + 1) '\\' ++ ['"']) 0 rest
    else quoteLoop (quoted ++ replicate backslashes '\\' ++ [ch]) 0 rest

def quoteWindowsArg (arg : Str) : Str := if needsQuotes arg then quoteLoop ['"'] 0 arg else arg

def argvToCommandLine (argv : List Str) : Str := join [' '] (argv.map quoteWindowsArg)

/-! ## The documented rules -/

/-- The rules for arguments: `2n` backslashes in front of a quote stand for `n` and the quote begins
or ends a quoted part, `2n + 1` for `n` and the quote is literal; other backslashes are literal, and
spaces and tabs outside of quoted parts separate. -/
def splitArgs (quoted : Bool) (backslashes : ℕ) (arg : Option Str) : Str → List Str
  | [] => (arg.map (· ++ replicate backslashes '\\')).toList
  | c :: rest =>
    if c = '\\' then splitArgs quoted (backslashes + 1) (some (arg.getD [])) rest
    else if c = '"' then
      let read := arg.getD [] ++ replicate (backslashes / 2) '\\'
      if backslashes % 2 = 0 then splitArgs (!quoted) 0 (some read) rest
      else splitArgs quoted 0 (some (read ++ ['"'])) rest
    else if !quoted && (c = ' ' || c = '\t') then
      (arg.map (· ++ replicate backslashes '\\')).toList ++ splitArgs false 0 none rest
    else splitArgs quoted 0 (some (arg.getD [] ++ replicate backslashes '\\' ++ [c])) rest

/-- The rules for the name of the program: no backslash is special. -/
def programName (quoted : Bool) (name : Str) : Str → Str × Str
  | [] => (name, [])
  | c :: rest =>
    if c = '"' then programName (!quoted) name rest
    else if !quoted && (c = ' ' || c = '\t') then (name, rest)
    else programName quoted (name ++ [c]) rest

def commandLineToArgv (line : Str) : List Str :=
  (programName false [] line).1 :: splitArgs false 0 none (programName false [] line).2

/-! ## Reading an argument back -/

variable {arg chars quoted read rest : Str}

theorem splitArgs_backslashes (inQuotes : Bool) (n k : ℕ) :
    splitArgs inQuotes n (some read) (replicate k '\\' ++ rest) =
      splitArgs inQuotes (n + k) (some read) rest := by
  induction k generalizing n with
  | zero => rfl
  | succ k ih =>
    rw [replicate_succ, cons_append, splitArgs, if_pos rfl, Option.getD_some, ih,
      Nat.add_assoc, Nat.add_comm 1 k]

/-- What the quoter writes, read from inside the quotes. -/
theorem splitArgs_quoteLoop {line : Str → List Str} {n : ℕ}
    (h : ∀ rest, line (quoted ++ rest) = splitArgs true 0 (some read) rest) :
    line (quoteLoop quoted n chars ++ rest) =
      splitArgs false 0 (some (read ++ replicate n '\\' ++ chars)) rest := by
  induction chars generalizing quoted n read with
  | nil =>
    rw [quoteLoop, append_assoc, append_assoc, h, splitArgs_backslashes]
    simp [splitArgs]
  | cons c chars ih =>
    rw [quoteLoop]
    split_ifs with hslash hquote
    · rw [ih h]
      simp [hslash, replicate_succ']
    · have hread : ∀ rest, line (quoted ++ replicate (n * 2 + 1) '\\' ++ ['"'] ++ rest) =
          splitArgs true 0 (some (read ++ replicate n '\\' ++ ['"'])) rest := fun rest => by
        have hhalf : (n * 2 + 1) / 2 = n := by omega
        rw [append_assoc, append_assoc, h, splitArgs_backslashes]
        simp [splitArgs, hhalf]
      rw [ih hread]
      simp [hquote]
    · have hread : ∀ rest, line (quoted ++ replicate n '\\' ++ [c] ++ rest) =
          splitArgs true 0 (some (read ++ replicate n '\\' ++ [c])) rest := fun rest => by
        rw [append_assoc, append_assoc, h, splitArgs_backslashes]
        simp [splitArgs, hslash, hquote]
      rw [ih hread]
      simp

/-- Behind an argument comes the end or a space. -/
def EndsArg (rest : Str) : Prop := ∀ c ∈ rest.head?, c = ' '

theorem splitArgs_endsArg (hrest : EndsArg rest) (n : ℕ) :
    splitArgs false n (some read) rest =
      (read ++ replicate n '\\') :: splitArgs false 0 none rest := by
  cases rest with
  | nil => rfl
  | cons c rest =>
    cases hrest c rfl
    rfl

/-- Characters that need no quotes are read as they are. -/
theorem splitArgs_plain {n : ℕ} (h : ∀ c ∈ chars, c ≠ ' ' ∧ c ≠ '\t' ∧ c ≠ '"')
    (hrest : EndsArg rest) :
    splitArgs false n (some read) (chars ++ rest) =
      (read ++ replicate n '\\' ++ chars) :: splitArgs false 0 none rest := by
  induction chars generalizing n read with
  | nil => rw [nil_append, append_nil, splitArgs_endsArg hrest]
  | cons c chars ih =>
    obtain ⟨⟨hspace, htab, hquote⟩, h⟩ := forall_mem_cons.mp h
    rw [cons_append, splitArgs]
    split_ifs with hslash hblank
    · rw [Option.getD_some, ih h]
      simp [hslash, replicate_succ']
    · simp [hspace, htab] at hblank
    · rw [Option.getD_some, ih h]
      simp

theorem plain_of_needsQuotes_eq_false (h : needsQuotes arg = false) :
    arg ≠ [] ∧ ∀ c ∈ arg, c ≠ ' ' ∧ c ≠ '\t' ∧ c ≠ '"' := by
  simp [needsQuotes] at h
  grind

theorem splitArgs_quoteWindowsArg (arg : Str) (hrest : EndsArg rest) :
    splitArgs false 0 none (quoteWindowsArg arg ++ rest) = arg :: splitArgs false 0 none rest := by
  rw [quoteWindowsArg]
  split_ifs with hneeds
  · have hopen : ∀ rest, splitArgs false 0 none (['"'] ++ rest) = splitArgs true 0 (some []) rest :=
      fun rest => by simp [splitArgs]
    rw [splitArgs_quoteLoop hopen, splitArgs_endsArg hrest]
    simp
  · obtain ⟨hne, hplain⟩ := plain_of_needsQuotes_eq_false (Bool.eq_false_iff.mpr hneeds)
    rw [← nil_append arg, ← append_nil [], ← replicate_zero, ← splitArgs_plain hplain hrest]
    cases arg with
    | nil => exact absurd rfl hne
    | cons c arg => simp [splitArgs, hplain c mem_cons_self]

theorem argvToCommandLine_cons (first : Str) (args : List Str) :
    ∃ rest, argvToCommandLine (first :: args) = quoteWindowsArg first ++ rest ∧ EndsArg rest ∧
      splitArgs false 0 none rest = splitArgs false 0 none (argvToCommandLine args) := by
  cases args with
  | nil => exact ⟨[], by simp [argvToCommandLine, join], by simp [EndsArg], rfl⟩
  | cons arg args =>
    exact ⟨' ' :: argvToCommandLine (arg :: args), by simp [argvToCommandLine, join],
      by simp [EndsArg], rfl⟩

theorem splitArgs_argvToCommandLine (argv : List Str) :
    splitArgs false 0 none (argvToCommandLine argv) = argv := by
  induction argv with
  | nil => rfl
  | cons first args ih =>
    obtain ⟨rest, hline, hrest, hargs⟩ := argvToCommandLine_cons first args
    rw [hline, splitArgs_quoteWindowsArg first hrest, hargs, ih]

/-! ## The name of the program -/

theorem programName_plain {inQuotes : Bool} {name : Str}
    (h : ∀ c ∈ chars, c ≠ '"' ∧ (inQuotes = true ∨ c ≠ ' ' ∧ c ≠ '\t')) :
    programName inQuotes name (chars ++ rest) = programName inQuotes (name ++ chars) rest := by
  induction chars generalizing name with
  | nil => simp
  | cons c chars ih =>
    obtain ⟨⟨hquote, hblank⟩, h⟩ := forall_mem_cons.mp h
    rw [cons_append, programName, if_neg hquote, if_neg (by grind), ih h, append_assoc]
    rfl

/-- Nothing is doubled. -/
theorem quoteLoop_eq (n : ℕ) (hquote : '"' ∉ chars)
    (hlast : (replicate n '\\' ++ chars).getLast? ≠ some '\\') :
    quoteLoop quoted n chars = quoted ++ replicate n '\\' ++ chars ++ ['"'] := by
  induction chars generalizing quoted n with
  | nil =>
    cases n with
    | zero => simp [quoteLoop]
    | succ n => simp [replicate_succ'] at hlast
  | cons c chars ih =>
    rw [mem_cons, not_or] at hquote
    rw [quoteLoop, if_neg (Ne.symm hquote.1)]
    split_ifs with hslash
    · rw [ih _ hquote.2 (by simpa [hslash, replicate_succ'] using hlast)]
      simp [hslash, replicate_succ']
    · rw [ih _ hquote.2 fun h => hlast (by simp_all [getLast?_cons])]
      simp

theorem programName_quoteWindowsArg (hquote : '"' ∉ arg)
    (hlast : needsQuotes arg = true → arg.getLast? ≠ some '\\') :
    programName false [] (quoteWindowsArg arg ++ rest) = programName false arg rest := by
  rw [quoteWindowsArg]
  split_ifs with hneeds
  · rw [quoteLoop_eq 0 hquote (hlast hneeds)]
    calc programName false [] (['"'] ++ replicate 0 '\\' ++ arg ++ ['"'] ++ rest)
        = programName true [] (arg ++ '"' :: rest) := by simp [programName]
      _ = programName true arg ('"' :: rest) :=
        programName_plain fun c hc => ⟨fun heq => hquote (heq ▸ hc), .inl rfl⟩
      _ = programName false arg rest := by simp [programName]
  · have hplain := (plain_of_needsQuotes_eq_false (Bool.eq_false_iff.mpr hneeds)).2
    refine programName_plain fun c hc => ?_
    obtain ⟨hspace, htab, hquote⟩ := hplain c hc
    exact ⟨hquote, .inr ⟨hspace, htab⟩⟩

/-- The rules for arguments read all arguments back, and so they do with those for the name of the
program if it has no quote, and no backslash at its end that would be doubled.  A quote in the name
can cost later arguments as well. -/
theorem command_line_read_back :
    (∀ argv, splitArgs false 0 none (argvToCommandLine argv) = argv) ∧
    ∀ first args, '"' ∉ first → (needsQuotes first = true → first.getLast? ≠ some '\\') →
      commandLineToArgv (argvToCommandLine (first :: args)) = first :: args := by
  refine ⟨splitArgs_argvToCommandLine, fun first args hquote hlast => ?_⟩
  obtain ⟨rest, hline, hrest, hargs⟩ := argvToCommandLine_cons first args
  rw [splitArgs_argvToCommandLine] at hargs
  rw [commandLineToArgv, hline, programName_quoteWindowsArg hquote hlast]
  cases rest with
  | nil => exact congrArg _ hargs
  | cons c rest =>
    cases hrest c rfl
    exact congrArg _ hargs

/-- A quoted name, and arguments with quotes, a backslash at the end, and nothing in them. -/
theorem quoted_command_line_read_back :
    let first := "C:\\a b".toList
    let args := ["say \"hi\"".toList, "a b\\".toList, []]
    '"' ∉ first ∧ needsQuotes first = true ∧ first.getLast? ≠ some '\\' ∧
      commandLineToArgv (argvToCommandLine (first :: args)) = first :: args :=
  ⟨by decide, by decide, by decide,
    command_line_read_back.2 _ _ (by decide) fun _ => by decide⟩

example : commandLineToArgv (argvToCommandLine ["a\"b".toList, "c".toList]) =
    ["a\\b c".toList] := by decide

end Codex.WindowsSandbox
