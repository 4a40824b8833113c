import Codex.Lib.Search
import Codex.Path.AbsolutePath

/-!
# Executables and what they are asked to do

How the safety checks tell which program an argument vector runs, and the rules for programs
of Windows.  What other libraries make of a text is a parameter (`Parsers`).
-/

namespace Codex.ShellCommand

open Text Search

/-- The words of a command, the program first. -/
abbrev Command := List Str

/-- What the libraries for shells, words and URLs make of a text. -/
structure Parsers where
  /-- The literal words of the commands of a script, if the script parses. -/
  literalCommands : Str → Option (List Command)
  shlexSplit : Str → Option (List Str)
  /-- What the pattern for inline URLs captures. -/
  captureUrl : Str → Option Str
  /-- The scheme of a text that is a URL. -/
  urlScheme : Str → Option Str

def toAsciiLowercase (s : Str) : Str := s.map Char.toLower

def contains (s needle : Str) : Bool := (find needle s).isSome

/-! ## Names of executables -/

/-- What follows the last separator. -/
def lastPiece (isSeparator : Char → Bool) (raw : Str) : Option Str :=
  let name := raw.rtakeWhile fun c => !isSeparator c
  if name = [] then none else some name

def isWindowsSeparator (c : Char) : Bool := c = '/' || c = '\\'

def withoutDrive : Str → Str
  | drive :: ':' :: name => if drive.isAlpha then name else drive :: ':' :: name
  | name => name

def stripSuffix (suffix name : Str) : Option Str :=
  if suffix <:+ name then some (name.take (name.length - suffix.length)) else none

def executableBasename (exe : Str) : Option Str :=
  match lastPiece isWindowsSeparator exe with
  | some name =>
    let name := withoutDrive name
    if name = [] then none else some (toAsciiLowercase name)
  | none => none

inductive DangerousCommandPlatform where
  | posix
  | windows
  deriving DecidableEq

def executableSuffixes : List Str :=
  [".exe".toList, ".cmd".toList, ".bat".toList, ".com".toList]

def executableNameLookupKey (raw : Str) : DangerousCommandPlatform → Option Str
  | .posix => lastPiece (· = '/') raw
  | .windows =>
    match lastPiece isWindowsSeparator raw with
    | some name =>
      let name := toAsciiLowercase (withoutDrive name)
      match executableSuffixes.findSome? (stripSuffix · name) with
      | some stripped => some stripped
      | none => if name = [] then none else some name
    | none => none

/-! ## Shells -/

inductive ShellType where
  | zsh
  | bash
  | powerShell
  | sh
  | cmd
  deriving DecidableEq

/-- The shell of that very name. -/
def shellOfName (name : Str) : Option ShellType :=
  if name = "zsh".toList then some .zsh
  else if name = "sh".toList then some .sh
  else if name = "cmd".toList then some .cmd
  else if name = "bash".toList then some .bash
  else if name = "pwsh".toList then some .powerShell
  else if name = "powershell".toList then some .powerShell
  else none

/-- `Path::components`: a leading `/` or `.` counts, any other `.` does not. -/
def allComponents (path : Str) : List Str :=
  (if path.head? = some '/' then [['/']]
    else if (path.splitOn '/').head? = some ['.'] then [['.']]
    else []) ++ pathComponents path

/-- `Path::file_stem`: the last component up to its last dot, unless that leaves nothing. -/
def fileStem (path : Str) : Option Str :=
  match (pathComponents path).getLast? with
  | some file =>
    if file = ['.', '.'] then none
    else
      let before := (file.rdropWhile (· ≠ '.')).dropLast
      some (if before = [] then file else before)
  | none => none

theorem sublist_of_fileStem {path stem : Str} (h : fileStem path = some stem) :
    stem.Sublist path := by
  unfold fileStem at h
  split at h
  · next file hfile =>
      split_ifs at h
      have hmem : file ∈ pathComponents path := List.mem_of_getLast? hfile
      have hfilePath : file.Sublist path := (piece_spec (List.mem_filter.mp hmem).1).1
      rw [← Option.some.inj h]
      split_ifs
      · exact hfilePath
      · exact ((List.dropLast_sublist _).trans (List.rdropWhile_prefix _ _).sublist).trans hfilePath
  · cases h

/-- `detect_shell_type`: the shell of that name, or of the file stem as long as that is
another path. -/
def detectShellType (path : Str) : Option ShellType :=
  match shellOfName path with
  | some shell => some shell
  | none =>
    match _h : fileStem path with
    | some stem =>
      if _hne : allComponents stem ≠ allComponents path then detectShellType stem else none
    | none => none
termination_by path.length
decreasing_by
  have hsub := sublist_of_fileStem _h
  refine lt_of_le_of_ne hsub.length_le fun hlength => _hne ?_
  rw [hsub.eq_of_length hlength]

/-! ## Programs of Windows -/

section Windows

variable (parsers : Parsers)

/-- From the first `https://` on, or else from the first `http://` on. -/
def fromUrlStart (token : Str) : Str :=
  let lowercaseToken := toAsciiLowercase token
  match (find "https://".toList lowercaseToken).or (find "http://".toList lowercaseToken) with
  | some i => token.drop i
  | none => token

def looksLikeUrl (token : Str) : Bool :=
  let urlish := fromUrlStart token
  let candidate := (parsers.captureUrl urlish).getD urlish
  match parsers.urlScheme candidate with
  | some scheme => scheme = "http".toList || scheme = "https".toList
  | none => false

def argsHaveUrl (args : List Str) : Bool := args.any (looksLikeUrl parsers)

def isBrowserExecutable (name : Str) : Bool :=
  name ∈ ["chrome".toList, "chrome.exe".toList, "msedge".toList, "msedge.exe".toList,
    "firefox".toList, "firefox.exe".toList, "iexplore".toList, "iexplore.exe".toList]

def fileProtocolHandler : Str := "url.dll,fileprotocolhandler".toList

/-- The words of an invocation of PowerShell: those of its script, or else the ones from the
first that is no flag. -/
def parsePowershellInvocation : List Str → Option (List Str)
  | [] => none
  | arg :: rest =>
    let lower := toAsciiLowercase arg
    if lower ∈ ["-command".toList, "/command".toList, "-c".toList] then
      match rest with
      | [script] => parsers.shlexSplit script
      | _ => none
    else if "-command:".toList.isPrefixOf lower ∨ "/command:".toList.isPrefixOf lower then
      if rest = [] then parsers.shlexSplit (arg.dropWhile (· ≠ ':')).tail else none
    -- `-nologo` and the other flags known by name are skipped like any flag
    else if lower.head? = some '-' then parsePowershellInvocation rest
    else some (arg :: rest)

/-- The segments of a script, the last one still open. -/
structure Segments where
  finished : List (List Str)
  last : List Str

namespace Segments

def pushWord (segments : Segments) (word : Str) : Segments :=
  if trim word = [] then segments else { segments with last := segments.last ++ [trim word] }

def cut (segments : Segments) : Segments :=
  if segments.last = [] then segments else ⟨segments.finished ++ [segments.last], []⟩

def readChar (state : Segments × Str) (ch : Char) : Segments × Str :=
  if ch ∈ [';', '|', '&', '\n', '\r', '\t'] then ((state.1.pushWord state.2).cut, [])
  else (state.1, state.2 ++ [ch])

def readToken (segments : Segments) (token : Str) : Segments :=
  let (segments, word) := token.foldl readChar (segments, [])
  segments.pushWord word

end Segments

def deleteCmdlets : List Str :=
  ["remove-item".toList, "ri".toList, "rm".toList, "del".toList, "erase".toList, "rd".toList,
    "rmdir".toList]

def isForceFlag (word : Str) : Bool :=
  let lower := toAsciiLowercase word
  lower = "-force".toList || "-force:".toList.isPrefixOf lower

def hasForceDeleteCmdlet (tokens : List Str) : Bool :=
  let segments := tokens.foldl Segments.readToken ⟨[], []⟩
  (segments.finished ++ [segments.last]).any fun segment =>
    let words := segment.flatMap fun token =>
      ((token.splitOnP (· ∈ ['\x7b', '\x7d', '(', ')', '[', ']', ',', ';'])).map trim).filter
        (· ≠ [])
    words.any (fun word => toAsciiLowercase word ∈ deleteCmdlets) && words.any isForceFlag

def trimMatches (c : Char) (s : Str) : Str := (s.dropWhile (· = c)).rdropWhile (· = c)

def opensUrl (token : Str) : Bool :=
  token ∈ ["start-process".toList, "start".toList, "saps".toList, "invoke-item".toList,
    "ii".toList] || contains token "start-process".toList || contains token "invoke-item".toList ||
  contains token "shellexecute".toList || contains token "shell.application".toList

def isDangerousPowershellWords (words : List Str) : Bool :=
  let tokens := words.map fun token =>
    toAsciiLowercase (trimMatches '"' (trimMatches '\x27' token))
  let hasUrl := argsHaveUrl parsers words
  (hasUrl && tokens.any opensUrl) ||
  (match tokens.head? with
    | some first =>
      hasUrl && ((first = "rundll32".toList && tokens.any (contains · fileProtocolHandler)) ||
        first = "mshta".toList || isBrowserExecutable first ||
        first = "explorer".toList || first = "explorer.exe".toList)
    | none => false) ||
  hasForceDeleteCmdlet tokens

def isPowershellExecutable (exe : Str) : Bool :=
  executableBasename exe ∈ [some "powershell".toList, some "powershell.exe".toList,
    some "pwsh".toList, some "pwsh.exe".toList]

def isDangerousPowershell : Command → Bool
  | [] => false
  | exe :: rest =>
    isPowershellExecutable exe &&
      match parsePowershellInvocation parsers rest with
      | some tokens => isDangerousPowershellWords parsers tokens
      | none => false

/-- What follows the flags of `cmd`. -/
def cmdBody : List Str → Option (List Str)
  | [] => some []
  | arg :: rest =>
    let lower := toAsciiLowercase arg
    if lower ∈ ["/c".toList, "/r".toList, "-c".toList] then some rest
    else if lower.head? = some '/' then cmdBody rest
    else none

/-- A token cut at the operators in it, with the text before them. -/
def splitOperators (text : Str) : Str → List Str
  | [] => [text]
  | [ch] => if ch = '&' ∨ ch = '|' then [text, [ch]] else [text ++ [ch]]
  | ch :: next :: rest =>
    if ch = '&' ∨ ch = '|' then
      if next = ch then text :: [ch, ch] :: splitOperators [] rest
      else text :: [ch] :: splitOperators [] (next :: rest)
    else splitOperators (text ++ [ch]) (next :: rest)

def splitEmbeddedCmdOperators (token : Str) : List Str :=
  (splitOperators [] token).filter (trim · ≠ [])

def hasFlag (flag : Str) (args : List Str) : Bool := args.any (toAsciiLowercase · = flag)

def isDangerousCmdSegment : List Str → Bool
  | [] => false
  | cmd :: args =>
    let lower := toAsciiLowercase cmd
    let segment := cmd :: args
    (lower = "start".toList && argsHaveUrl parsers segment) ||
    ((lower = "del".toList || lower = "erase".toList) && hasFlag "/f".toList segment) ||
    ((lower = "rd".toList || lower = "rmdir".toList) && hasFlag "/s".toList segment &&
      hasFlag "/q".toList segment)

def isCmdExecutable (exe : Str) : Bool :=
  executableBasename exe ∈ [some "cmd".toList, some "cmd.exe".toList]

def isDangerousCmd : Command → Bool
  | [] => false
  | exe :: rest =>
    isCmdExecutable exe &&
    match cmdBody rest with
    | none => false
    | some [] => false
    | some remaining =>
      let tokens := match remaining with
        | [only] => (parsers.shlexSplit only).getD [only]
        | _ => remaining
      ((tokens.flatMap splitEmbeddedCmdOperators).splitOnP
        (· ∈ ["&".toList, "&&".toList, "|".toList, "||".toList])).any
          (isDangerousCmdSegment parsers)

/-- A program that opens the URL it is given. -/
def isUrlLauncher (base : Str) : Bool :=
  base ∈ ["explorer".toList, "explorer.exe".toList, "mshta".toList, "mshta.exe".toList]

def isRundll (base : Str) : Bool := base ∈ ["rundll32".toList, "rundll32.exe".toList]

def isDirectGuiLaunch : Command → Bool
  | [] => false
  | exe :: rest =>
    match executableBasename exe with
    | none => false
    | some base =>
      argsHaveUrl parsers rest &&
        (isUrlLauncher base ||
          (isRundll base &&
            rest.any fun token => contains (toAsciiLowercase token) fileProtocolHandler) ||
          isBrowserExecutable base)

def isDangerousCommandWindows (command : Command) : Bool :=
  isDangerousPowershell parsers command || isDangerousCmd parsers command ||
    isDirectGuiLaunch parsers command

end Windows

end Codex.ShellCommand
