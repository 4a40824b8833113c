import Codex.Lib.Bytes

/-!
# Paths as `file:` URIs

`PathUri` wraps a URL, of which only the host and the segments of the path matter
here.  The segments are kept as they are spelled, percent-encoded; the path `/` has
one empty segment, as in the `url` crate.  An absolute native path that would be
misread as one of another convention is stored as an opaque fallback, whose bytes
are base64 under the reserved prefix `/%00/bad/path/`.

Of the `url` crate, the parsing of host names is a parameter (`UrlHosts`); setting
path segments encodes the characters of the crate's path segment set.
-/

namespace Codex

open Text Bytes

inductive PathConvention where
  | posix
  | windows
  deriving DecidableEq, Repr

/-- The host and the path segments of a `file:` URL.  Equality of these is equality of
URLs; the equality of paths is `PathUri.same`. -/
structure PathUri where
  host : Option Str
  segments : List Str
  deriving DecidableEq, Repr

/-- The host parser of the `url` crate: the host as the URL spells it, if it is valid. -/
class UrlHosts where
  parseHost : Str → Option Str

def isAsciiAlphabetic (c : Char) : Bool :=
  (65 ≤ c.toNat && c.toNat ≤ 90) || (97 ≤ c.toNat && c.toNat ≤ 122)

/-- `urlencoding::decode_binary`. -/
def decodeBinary (s : Str) : List ℕ := percentDecode (asBytes s)

/-- `decode_uri_path`, as bytes: what is not UTF-8 keeps its spelling. -/
def decodeUriPath (s : Str) : List ℕ :=
  if validUtf8 (decodeBinary s) then decodeBinary s else asBytes s

def isWindowsDriveUriSegment : Str → Bool
  | [drive, ':'] => isAsciiAlphabetic drive
  | [drive, '%', '3', 'A'] => isAsciiAlphabetic drive
  | [drive, '%', '3', 'a'] => isAsciiAlphabetic drive
  | _ => false

/-- The convention of the native path in a fallback: an absolute POSIX path, or the
UTF-16 form of a Windows path with a drive or two leading separators. -/
def inferOpaquePathConvention (bytes : List ℕ) : Option PathConvention :=
  if bytes.head? = some 47 ∧ bytes.take 2 ≠ [47, 0] then some .posix
  else if bytes.length % 2 ≠ 0 then none
  else
    match bytes with
    | a :: b :: c :: d :: _ =>
      let isSeparator := fun low high : ℕ => high = 0 ∧ (low = 92 ∨ low = 47)
      if (b = 0 ∧ isAsciiAlphabetic (Char.ofNat a) ∧ c = 58 ∧ d = 0) ∨
          (isSeparator a b ∧ isSeparator c d) then some .windows
      else none
    | _ => none

namespace PathUri

variable (uri : PathUri)

/-- The bytes of a fallback, if its base64 text is in canonical form. -/
def decodeBadPathUri : Option (List ℕ) :=
  match uri.host, uri.segments with
  | none, [zero, bad, path, encoded] =>
    if zero = "%00".toList ∧ bad = "bad".toList ∧ path = "path".toList ∧ encoded ≠ [] then
      (base64Decode encoded).filter fun bytes => base64Encode bytes = encoded
    else none
  | _, _ => none

/-- The local URI with these segments. -/
def ofSegments (segments : List String) : PathUri := ⟨none, segments.map String.toList⟩

def isOpaque : Bool := uri.decodeBadPathUri.isSome

def fromOpaquePathBytes (bytes : List ℕ) : PathUri :=
  ⟨none, ["%00".toList, "bad".toList, "path".toList, base64Encode bytes]⟩

def encodedPath : Str := uri.segments.flatMap ('/' :: ·)

def nonEmptySegments : List Str := uri.segments.filter (· ≠ [])

def inferPathConvention : Option PathConvention :=
  match uri.decodeBadPathUri with
  | some bytes => inferOpaquePathConvention bytes
  | none =>
    if uri.host.isSome then some .windows
    else if uri.nonEmptySegments.head?.any isWindowsDriveUriSegment then some .windows
    else some .posix

variable (convention : PathConvention)

/-- The segment, decoded, holds a separator of the convention. -/
def hasEncodedSeparator (segment : Str) : Bool :=
  (decodeBinary segment).any fun b => b = 47 || (convention = .windows && b = 92)

/-- `containment_path_segments`. -/
def containmentPathSegments (convention : PathConvention) : Option (List Str) :=
  if uri.nonEmptySegments.any (hasEncodedSeparator convention) then none
  else some uri.nonEmptySegments

def lexicalDepth : Option ℕ := do
  if uri.isOpaque then none
  else
    let convention ← uri.inferPathConvention
    let segments ← uri.containmentPathSegments convention
    return segments.length

/-- What the comparison of Windows paths looks at, up to case. -/
def windowsIdentityPathBytes : Option (List ℕ) :=
  if uri.inferPathConvention ≠ some .windows ∨ uri.isOpaque ∨
      uri.segments.any (hasEncodedSeparator .windows) then none
  else some (decodeBinary uri.encodedPath)

/-- `PartialEq` of `PathUri`. -/
def same (left right : PathUri) : Bool :=
  if left = right then true
  else
    match left.windowsIdentityPathBytes, right.windowsIdentityPathBytes with
    | some path, some other => left.host = right.host ∧ foldCase path = foldCase other
    | _, _ => false

/-- Two segments are equal: byte for byte, or on Windows up to case. -/
def sameSegment : PathConvention → Str → Str → Bool
  | .posix, path, base => decodeBinary path = decodeBinary base
  | .windows, path, base =>
    foldCase (asBytes path) = foldCase (asBytes base) ||
      foldCase (decodeUriPath path) = foldCase (decodeUriPath base)

def nativePathSegmentsStartWith (path base : List Str) (convention : PathConvention) : Bool :=
  base.length ≤ path.length && (path.zip base).all fun p => sameSegment convention p.1 p.2

/-- The path is lexically equal to or below the base. -/
def startsWith (path base : PathUri) : Bool :=
  if path.same base then true
  else if path.isOpaque || base.isOpaque then false
  else if path.host ≠ base.host then false
  else if path.inferPathConvention ≠ base.inferPathConvention then false
  else
    let convention := path.inferPathConvention.getD .posix
    match path.containmentPathSegments convention, base.containmentPathSegments convention with
    | some path, some base => nativePathSegmentsStartWith path base convention
    | _, _ => false

/-! ## Segments -/

/-- How many segments cannot be left: a Windows path keeps its drive or share. -/
def anchorDepth : ℕ := if convention = .windows then 1 else 0

/-- `path_segments_mut().pop_if_empty()`. -/
def popIfEmpty (segments : List Str) : List Str :=
  if 1 < segments.length ∧ segments.getLast? = some [] then segments.dropLast else segments

/-- `path_segments_mut().pop()`, by the documentation of the `url` crate: the last segment goes, and
the path `/` stays. -/
def popSegment (segments : List Str) : List Str :=
  if 1 < segments.length then segments.dropLast else [[]]

/-- The bytes that the `url` crate encodes in a path segment: its documented set for paths, with the
slash, the percent sign and the backslash, which would not stay inside of a segment. -/
def needsEncoding (b : ℕ) : Bool :=
  b ≤ 0x20 || 0x7F ≤ b || [34, 35, 37, 47, 60, 62, 63, 92, 96, 123, 125].contains b

def hexDigit (n : ℕ) : Char := if n < 10 then Char.ofNat (48 + n) else Char.ofNat (55 + n)

def percentEncodeByte (b : ℕ) : Str :=
  if needsEncoding b then ['%', hexDigit (b / 16), hexDigit (b % 16)] else [Char.ofNat b]

def percentEncodeBytes (bytes : List ℕ) : Str := bytes.flatMap percentEncodeByte

def percentEncode (segment : Str) : Str := percentEncodeBytes (asBytes segment)

/-- `path_segments_mut().push`, by the documentation of the `url` crate: the first segment of the
path `/` takes the place of the empty one.  Left out is that the crate rewrites a first segment of
the form `X|` in a `file:` URL to `X:`. -/
def pushSegment (segments : List Str) (segment : Str) : List Str :=
  if segments = [[]] then [percentEncode segment] else segments ++ [percentEncode segment]

/-- A drive letter is kept in upper case. -/
def withNormalizedWindowsDriveLetter : PathUri :=
  if uri.host.isSome then uri
  else
    let empty := uri.segments.takeWhile (· = [])
    match uri.segments.dropWhile (· = []) with
    | drive :: rest =>
      if isWindowsDriveUriSegment drive then
        { uri with segments := empty ++ (drive.modifyHead Char.toUpper :: rest) }
      else uri
    | [] => uri

/-- `TryFrom<Url>`, for a `file:` URL without credentials, port, query and fragment. -/
def ofUrl : Option PathUri :=
  if (decodeBinary uri.encodedPath).contains 0 ∧ ¬ uri.isOpaque then none
  else
    let uri := if uri.host = some "localhost".toList then { uri with host := none } else uri
    some uri.withNormalizedWindowsDriveLetter

/-- The lexical parent, which does not leave the root of the native path. -/
def parent : Option PathUri := do
  if uri.isOpaque then none
  else
    let convention ← uri.inferPathConvention
    if uri.nonEmptySegments.length ≤ anchorDepth convention then none
    else some { uri with segments := popSegment (popIfEmpty uri.segments) }

/-- The last of the URI and its lexical parents; the fuel bounds their number. -/
def lastAncestor : ℕ → PathUri → PathUri
  | 0, uri => uri
  | fuel + 1, uri =>
    match uri.parent with
    | some parent => lastAncestor fuel parent
    | none => uri

/-- The last of `ancestors`.  A step to the parent removes a segment, so that the number
of segments is enough. -/
def ancestorsLast : PathUri := lastAncestor uri.segments.length uri

/-- The decoded final segment, as bytes. -/
def basename : Option (List ℕ) :=
  if uri.isOpaque then none else uri.nonEmptySegments.getLast?.map decodeUriPath

/-! ## Native paths -/

def isWindowsSeparator (c : Char) : Bool := c = '\\' || c = '/'

/-- `split(is_windows_separator_char)`. -/
def splitWindows (path : Str) : List Str :=
  (path.map fun c => if c = '\\' then '/' else c).splitOn '/'

/-- `PathConvention::path_segments`. -/
def pathSegments : PathConvention → Str → List Str
  | .posix, path => path.splitOn '/'
  | .windows, path => splitWindows path

/-- The segments so far, how many there are and whether a separator came last. -/
structure NormalizedSegments where
  segments : List Str
  depth : ℕ
  hasTrailingSeparator : Bool

def NormalizedSegments.push (state : NormalizedSegments) (segment : Str) : NormalizedSegments :=
  if segment = [] then { state with hasTrailingSeparator := true }
  else if segment = ".".toList then { state with hasTrailingSeparator := false }
  else if segment = "..".toList then
    if anchorDepth convention < state.depth then
      ⟨state.segments.dropLast, state.depth - 1, false⟩
    else { state with hasTrailingSeparator := false }
  else ⟨state.segments ++ [segment], state.depth + 1, false⟩

def pathUriFromSegments [UrlHosts] (convention : PathConvention) (host : Option Str)
    (segments : List Str) : Option PathUri := do
  let urlHost ←
    match host with
    | none => some none
    | some host => (UrlHosts.parseHost host).map some
  let normalized := segments.foldl (NormalizedSegments.push convention) ⟨[], 0, false⟩
  let segments :=
    if normalized.hasTrailingSeparator ||
        (convention = .windows && host.isNone && normalized.depth = anchorDepth convention) then
      normalized.segments ++ [[]]
    else normalized.segments
  ofUrl ⟨urlHost, segments.foldl pushSegment [[]]⟩

def parsePosixPath [UrlHosts] : Str → Option PathUri
  | '/' :: path =>
    if path.contains '\x00' then some (fromOpaquePathBytes (asBytes ('/' :: path)))
    else pathUriFromSegments .posix none (path.splitOn '/')
  | _ => none

def windowsOpaquePathUri (path : Str) : PathUri := fromOpaquePathBytes (encodeUtf16le path)

def isWindowsDriveAbsolutePath : Str → Bool
  | drive :: ':' :: separator :: _ => isAsciiAlphabetic drive && isWindowsSeparator separator
  | _ => false

def normalizeWindowsDevicePath (path : Str) : Option Str :=
  match stripPrefix "\\\\?\\UNC\\".toList path, stripPrefix "\\\\.\\UNC\\".toList path with
  | some unc, _ => some ("\\\\".toList ++ unc)
  | none, some unc => some ("\\\\".toList ++ unc)
  | none, none =>
    match (stripPrefix "\\\\?\\".toList path).filter isWindowsDriveAbsolutePath with
    | some path => some path
    | none => (stripPrefix "\\\\.\\".toList path).filter isWindowsDriveAbsolutePath

/-- A name that a UNC path cannot have as its host or share. -/
def isDots (name : Str) : Bool := name = ".".toList || name = "..".toList

def usesWindowsNamespace : Str → Bool
  | first :: second :: kind :: separator :: _ =>
    isWindowsSeparator first && isWindowsSeparator second && isWindowsSeparator separator &&
      (kind = '.' || kind = '?')
  | _ => false

/-- The path behind two separators: host, share and segments. -/
def parseUncPath [UrlHosts] (path rest : Str) : Option PathUri :=
  match splitWindows rest with
  | host :: share :: components =>
    if host = [] ∨ share = [] then none
    else if isDots host ∨ isDots share then some (windowsOpaquePathUri path)
    else
      match (pathUriFromSegments .windows (some host) (share :: components)).filter fun uri =>
          uri.host.any fun parsed => foldCase (asBytes parsed) = foldCase (asBytes host) with
      | some uri => some uri
      | none => some (windowsOpaquePathUri path)
  | _ => none

def parseUnnormalizedWindowsPath [UrlHosts] (path : Str) : Option PathUri :=
  if usesWindowsNamespace path || path.contains '\x00' then some (windowsOpaquePathUri path)
  else if isWindowsDriveAbsolutePath path then
    pathUriFromSegments .windows none (path.take 2 :: splitWindows (path.drop 3))
  else
    match path with
    | first :: second :: rest =>
      if isWindowsSeparator first && isWindowsSeparator second then parseUncPath path rest
      else none
    | _ => none

def parseWindowsPath [UrlHosts] (path : Str) : Option PathUri :=
  match normalizeWindowsDevicePath path with
  | none => parseUnnormalizedWindowsPath path
  | some normalizedPath =>
    let unc := stripPrefix "\\\\".toList normalizedPath
    let invalid := fun name : Option Str => name.all fun name => name = [] || isDots name
    if unc.any fun unc => invalid (splitWindows unc)[0]? || invalid (splitWindows unc)[1]? then
      some (windowsOpaquePathUri path)
    else
      let parsed := (parseUnnormalizedWindowsPath normalizedPath).filter fun uri =>
        uri.inferPathConvention = some .windows && !uri.isOpaque &&
          (unc.isNone || uri.host.any (· ≠ []))
      some (parsed.getD (windowsOpaquePathUri path))

def fromAbsoluteNativePath [UrlHosts] (path : Str) (convention : PathConvention) :
    Option PathUri := do
  let uri ←
    match convention with
    | .posix => parsePosixPath path
    | .windows => parseWindowsPath path
  if uri.host ≠ some [] ∧ uri.inferPathConvention = some convention then some uri
  else
    match convention with
    | .posix => some (fromOpaquePathBytes (asBytes path))
    | .windows => some (windowsOpaquePathUri path)

/-! ## Joining -/

/-- Without the drive of a path such as `C:name`, which must be that of the base. -/
def withoutDrive (base : PathUri) (convention : PathConvention) (path : Str) : Option Str :=
  match convention, path with
  | .windows, drive :: ':' :: rest =>
    if isAsciiAlphabetic drive then
      if base.nonEmptySegments.head?.any fun segment =>
          isWindowsDriveUriSegment segment && (segment.head?.map Char.toLower = some drive.toLower)
      then some rest
      else none
    else some path
  | _, _ => some path

/-- One component of a relative path; the number counts the segments that are left. -/
def joinComponent (state : List Str × ℕ) (component : Str) : List Str × ℕ :=
  if component = [] ∨ component = ".".toList then state
  else if component = "..".toList then
    if anchorDepth convention < state.2 then (popSegment state.1, state.2 - 1) else state
  else (pushSegment state.1 component, state.2 + 1)

def isWindowsRootRelative : PathConvention → Str → Bool
  | .windows, separator :: rest =>
    isWindowsSeparator separator && !(rest.head?.any isWindowsSeparator)
  | _, _ => false

/-- Resolves native path text against the URI; `none` where the code reports an error. -/
def join [UrlHosts] (base : PathUri) (path : Str) : Option PathUri := do
  if path.contains '\x00' then none
  else if path = [] then some base
  else
    let convention ← base.inferPathConvention
    match fromAbsoluteNativePath path convention with
    | some absolute => some absolute
    | none =>
      let path ← base.withoutDrive convention path
      if base.isOpaque then none
      else
        let depth := base.nonEmptySegments.length
        let start := popIfEmpty base.segments
        let anchored :=
          if isWindowsRootRelative convention path then
            (Nat.repeat popSegment (depth - anchorDepth convention) start, anchorDepth convention)
          else (start, depth)
        let joined := (pathSegments convention path).foldl (joinComponent convention) anchored
        ofUrl { base with segments := joined.1 }

/-- A relative path that stays at or below the URI. -/
def joinDescendant [UrlHosts] (base : PathUri) (path : Str) : Option PathUri := do
  let descendant ← base.join path
  let windows := base.inferPathConvention = some .windows
  if path.head? = some '/' ||
      (windows && (path.head? = some '\\' ||
        (pathSegments .windows path).any fun segment => segment.contains ':')) ||
      !descendant.startsWith base then none
  else some descendant

end PathUri

end Codex
