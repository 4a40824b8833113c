import Codex.Path.Containment

/-!
# Native paths on Unix

A native path is a sequence of bytes.  `NativePath` is an `AbsolutePathBuf` on Unix in
this form: the components of an absolute path without `.` and `..`.  Its URI has the
location with the same components, unless the path has no URI of its own, because of a
null byte or a first component that reads as a Windows drive; it is then stored as an
opaque fallback, which has no location.
-/

namespace Codex

open Text Bytes PathUri List

/-! ## Components -/

/-- `Path::components`: empty components and `.` are left out. -/
def pathByteComponents (bytes : List ℕ) : List (List ℕ) :=
  ((bytes.map (· % 256)).splitOn 47).filter fun component => component ≠ [] ∧ component ≠ [46]

/-- One component of `normalize_path`: `..` takes the last component back. -/
def normalizeStep (normalized : List (List ℕ)) (component : List ℕ) : List (List ℕ) :=
  if component = [46, 46] then normalized.dropLast else normalized ++ [component]

/-- A component of a normalised path. -/
def IsComponent (component : List ℕ) : Prop :=
  component ≠ [] ∧ component ≠ [46] ∧ component ≠ [46, 46] ∧ 47 ∉ component ∧
    ∀ b ∈ component, b < 256

instance : DecidablePred IsComponent :=
  fun _ => inferInstanceAs (Decidable (_ ∧ _ ∧ _ ∧ _ ∧ _))

/-- An absolute, normalised path on Unix. -/
structure NativePath where
  components : List (List ℕ)
  normal : ∀ component ∈ components, IsComponent component
  deriving DecidableEq

theorem mem_pathByteComponents {bytes component : List ℕ}
    (h : component ∈ pathByteComponents bytes) :
    component ≠ [] ∧ component ≠ [46] ∧ 47 ∉ component ∧ ∀ b ∈ component, b < 256 := by
  obtain ⟨hsplit, hkept⟩ := mem_filter.mp h
  obtain ⟨hempty, hdot⟩ := of_decide_eq_true hkept
  refine ⟨hempty, hdot, notMem_of_mem_splitOn hsplit, ?_⟩
  intro b hb
  obtain ⟨c, -, rfl⟩ := mem_map.mp ((piece_spec hsplit).1.subset hb)
  omega

theorem isComponent_of_mem_foldl {components normalized : List (List ℕ)}
    (h : ∀ component ∈ components, component ≠ [] ∧ component ≠ [46] ∧ 47 ∉ component ∧
      ∀ b ∈ component, b < 256)
    (hnormal : ∀ component ∈ normalized, IsComponent component) :
    ∀ component ∈ components.foldl normalizeStep normalized, IsComponent component := by
  refine List.foldlRecOn (motive := fun normalized : List (List ℕ) =>
    ∀ component ∈ normalized, IsComponent component) _ _ hnormal fun _ hnormal component hmem => ?_
  unfold normalizeStep
  split_ifs with hparent
  · exact fun c hc => hnormal c (dropLast_subset _ hc)
  · obtain ⟨hempty, hdot, hslash, hbytes⟩ := h component hmem
    rw [forall_mem_append, forall_mem_singleton]
    exact ⟨hnormal, hempty, hdot, hparent, hslash, hbytes⟩

/-- Without `..` there is nothing to normalise. -/
theorem foldl_normalizeStep {components : List (List ℕ)} (h : [46, 46] ∉ components)
    (normalized : List (List ℕ)) :
    components.foldl normalizeStep normalized = normalized ++ components := by
  induction components generalizing normalized with
  | nil => simp
  | cons component rest ih =>
    rw [mem_cons, not_or] at h
    rw [foldl_cons, normalizeStep, if_neg (Ne.symm h.1), ih h.2, List.append_assoc,
      singleton_append]

namespace NativePath

def root : NativePath := ⟨[], by simp⟩

/-- The path of an absolute path text. -/
def ofBytes (bytes : List ℕ) : NativePath where
  components := (pathByteComponents bytes).foldl normalizeStep []
  normal := isComponent_of_mem_foldl (fun _ h => mem_pathByteComponents h) (by simp)

/-- The text of the path. -/
def bytes (path : NativePath) : List ℕ :=
  if path.components = [] then [47] else path.components.flatMap (47 :: ·)

/-- `resolve_path_against_base`: an absolute path replaces the base, and `~` stands for the home
directory. -/
def resolvePathAgainstBase (home : Option (List ℕ)) (path : List ℕ) (base : NativePath) :
    NativePath :=
  let expanded :=
    match path, home with
    | [126], some home => home
    | 126 :: 47 :: rest, some home => home ++ 47 :: rest.dropWhile (· = 47)
    | _, _ => path
  if expanded.head? = some 47 then ofBytes expanded
  else
    { components := (pathByteComponents expanded).foldl normalizeStep base.components
      normal := isComponent_of_mem_foldl (fun _ h => mem_pathByteComponents h) base.normal }

theorem components_resolvePathAgainstBase {path : List ℕ} (hhome : path.head? ≠ some 126)
    (hrelative : path.head? ≠ some 47) (home : Option (List ℕ)) (base : NativePath) :
    (resolvePathAgainstBase home path base).components =
      (pathByteComponents path).foldl normalizeStep base.components := by
  unfold resolvePathAgainstBase
  rw [apply_ite components]
  dsimp only
  split
  · simp at hhome
  · simp at hhome
  · rw [if_neg hrelative]

/-- `Path::starts_with`. -/
def startsWith (path base : NativePath) : Bool := base.components.isPrefixOf path.components

/-- The location with the components of the path. -/
def place (path : NativePath) : Location := ⟨none, .posix, path.components⟩

/-- `PathUri::from_abs_path`. -/
def uri (path : NativePath) : PathUri :=
  let segments :=
    if path.components = [] then [[]] else path.components.map percentEncodeBytes
  match PathUri.ofUrl ⟨none, segments⟩ with
  | some uri =>
    if uri.host ≠ some [] ∧ uri.inferPathConvention = some .posix then uri
    else fromOpaquePathBytes path.bytes
  | none => fromOpaquePathBytes path.bytes

end NativePath

/-- `PathUri::to_abs_path` on Unix. -/
def PathUri.toAbsPath (uri : PathUri) : Option NativePath :=
  if uri.inferPathConvention ≠ some .posix then none
  else
    match uri.decodeBadPathUri with
    | some bytes =>
      if bytes.head? = some 47 then
        let path := NativePath.ofBytes bytes
        if path.uri.same uri then some path else none
      else none
    | none => some (NativePath.ofBytes (decodeBinary uri.encodedPath))

/-! ## The URI of a native path -/

namespace PathUri

theorem asBytes_singleton {b : ℕ} (h : b < 0x80) : asBytes [Char.ofNat b] = [b] := by
  have hall : ∀ b < 0x80, asBytes [Char.ofNat b] = [b] := by decide
  exact hall b h

theorem asBytes_hexDigit {n : ℕ} (h : n < 16) :
    ∃ digit, asBytes [hexDigit n] = [digit] ∧ hexValue digit = some n := by
  have hall : ∀ n < 16, hexValue ((asBytes [hexDigit n]).headD 0) = some n ∧
      asBytes [hexDigit n] = [(asBytes [hexDigit n]).headD 0] := by decide
  exact ⟨_, (hall n h).2, (hall n h).1⟩

theorem percentDecode_percentEncodeByte {b : ℕ} (h : b < 256) (rest : List ℕ) :
    percentDecode (asBytes (percentEncodeByte b) ++ rest) = b :: percentDecode rest := by
  unfold percentEncodeByte
  split_ifs with hneeds
  · obtain ⟨high, hhigh, hhighValue⟩ := asBytes_hexDigit (show b / 16 < 16 by omega)
    obtain ⟨low, hlow, hlowValue⟩ := asBytes_hexDigit (show b % 16 < 16 by omega)
    have hbytes : asBytes ['%', hexDigit (b / 16), hexDigit (b % 16)] = [37, high, low] := by
      have hsplit : ['%', hexDigit (b / 16), hexDigit (b % 16)] =
          ['%'] ++ ([hexDigit (b / 16)] ++ [hexDigit (b % 16)]) := rfl
      rw [hsplit, asBytes_append, asBytes_append, hhigh, hlow]
      rfl
    have hvalue : 16 * (b / 16) + b % 16 = b := by omega
    rw [hbytes, cons_append, cons_append, cons_append, nil_append,
      percentDecode, if_pos (by simp [hhighValue, hlowValue]), hhighValue, hlowValue,
      Option.getD_some, Option.getD_some, hvalue]
  · have hascii : b < 0x7F := by
      by_contra hle
      exact hneeds (by simp [needsEncoding, show 0x7F ≤ b by omega])
    have hpercent : b ≠ 37 := by
      rintro rfl
      exact hneeds rfl
    rw [asBytes_singleton (by omega), singleton_append, percentDecode_cons_of_ne hpercent]

/-- What is encoded decodes to itself. -/
theorem decodeBinary_percentEncodeBytes {bytes : List ℕ} (h : ∀ b ∈ bytes, b < 256) :
    decodeBinary (percentEncodeBytes bytes) = bytes := by
  induction bytes with
  | nil => rfl
  | cons b rest ih =>
    have hcons : percentEncodeBytes (b :: rest) = percentEncodeByte b ++ percentEncodeBytes rest :=
      rfl
    rw [hcons, decodeBinary, asBytes_append,
      percentDecode_percentEncodeByte (h b (mem_cons_self ..))]
    exact congrArg (List.cons b) (ih fun c hc => h c (mem_cons_of_mem _ hc))

theorem isOpaque_fromOpaquePathBytes {bytes : List ℕ} (hne : bytes ≠ [])
    (h : ∀ b ∈ bytes, b < 256) : (fromOpaquePathBytes bytes).isOpaque = true := by
  have hdecode := base64Decode_base64Encode h
  have hencoded : base64Encode bytes ≠ [] := by
    intro hnil
    rw [hnil] at hdecode
    exact hne (Option.some_inj.mp hdecode).symm
  simp [isOpaque, decodeBadPathUri, fromOpaquePathBytes, hencoded, hdecode]

/-- The first segment with something in it is the one that can be a drive. -/
theorem head?_nonEmptySegments (uri : PathUri) :
    uri.nonEmptySegments.head? = (uri.segments.dropWhile (· = [])).head? := by
  unfold nonEmptySegments
  induction uri.segments with
  | nil => rfl
  | cons segment rest ih =>
    by_cases hempty : segment = []
    · simpa [hempty] using ih
    · simp [hempty]

theorem withNormalizedWindowsDriveLetter_eq {uri : PathUri}
    (h : uri.nonEmptySegments.head?.any isWindowsDriveUriSegment = false) :
    uri.withNormalizedWindowsDriveLetter = uri := by
  unfold withNormalizedWindowsDriveLetter
  rw [head?_nonEmptySegments] at h
  split_ifs
  · rfl
  · cases hdrop : uri.segments.dropWhile (· = []) with
    | nil => rfl
    | cons drive rest =>
      have hdrive : isWindowsDriveUriSegment drive = false := by simpa [hdrop] using h
      simp [hdrive]

theorem of_isAsciiAlphabetic {P : Char → Prop} {c : Char} (hc : isAsciiAlphabetic c = true)
    (h : ∀ n < 128, isAsciiAlphabetic (Char.ofNat n) = true → P (Char.ofNat n)) : P c := by
  have hascii : c.toNat < 128 := by
    simp only [isAsciiAlphabetic, Bool.or_eq_true, Bool.and_eq_true, decide_eq_true_eq] at hc
    omega
  have hletter := h c.toNat hascii
  rw [Char.ofNat_toNat] at hletter
  exact hletter hc

theorem isAsciiAlphabetic_toUpper {c : Char} (h : isAsciiAlphabetic c = true) :
    isAsciiAlphabetic c.toUpper = true :=
  of_isAsciiAlphabetic (P := fun c => isAsciiAlphabetic c.toUpper = true) h (by decide)

theorem isWindowsDriveUriSegment_toUpper {segment : Str}
    (h : isWindowsDriveUriSegment segment = true) :
    isWindowsDriveUriSegment (segment.modifyHead Char.toUpper) = true := by
  unfold isWindowsDriveUriSegment at h
  split at h
  · exact isAsciiAlphabetic_toUpper h
  · exact isAsciiAlphabetic_toUpper h
  · exact isAsciiAlphabetic_toUpper h
  · cases h

theorem nonEmptySegments_withNormalizedWindowsDriveLetter {uri : PathUri} {drive : Str}
    {rest : List Str} (hhost : uri.host = none) (hsegments : uri.nonEmptySegments = drive :: rest)
    (hdrive : isWindowsDriveUriSegment drive = true) :
    uri.withNormalizedWindowsDriveLetter.nonEmptySegments =
      drive.modifyHead Char.toUpper :: rest := by
  have hempty : ∀ segments : List Str, (segments.takeWhile (· = [])).filter (· ≠ []) = [] := by
    intro segments
    rw [filter_eq_nil_iff]
    intro segment hsegment
    simpa using mem_takeWhile_imp hsegment
  -- the segments from the first one with something in it
  have hfrom : (uri.segments.dropWhile (· = [])).filter (· ≠ []) = drive :: rest := by
    rw [← hsegments, nonEmptySegments]
    conv_rhs => rw [← takeWhile_append_dropWhile (l := uri.segments) (p := (· = []))]
    rw [filter_append, hempty, nil_append]
  have hfirst := head?_nonEmptySegments uri
  rw [hsegments, head?_cons] at hfirst
  cases hdrop : uri.segments.dropWhile (· = []) with
  | nil => simp [hdrop] at hfirst
  | cons first others =>
    rw [hdrop, head?_cons, Option.some_inj] at hfirst
    subst hfirst
    have hne : drive ≠ [] := by
      rintro rfl
      cases hdrive
    have hupperNe : drive.modifyHead Char.toUpper ≠ [] := by simpa using hne
    have hothers : others.filter (· ≠ []) = rest := by
      rw [hdrop, filter_cons_of_pos (by simpa using hne)] at hfrom
      exact (List.cons.inj hfrom).2
    unfold withNormalizedWindowsDriveLetter nonEmptySegments
    simp only [hhost, Option.isSome_none, Bool.false_eq_true, if_false, hdrop, hdrive, if_true,
      filter_append, hempty, nil_append]
    rw [filter_cons_of_pos (by simpa using hupperNe), hothers]

/-- A drive stays a drive when its letter is normalised. -/
theorem head?_withNormalizedWindowsDriveLetter {uri : PathUri}
    (h : uri.nonEmptySegments.head?.any isWindowsDriveUriSegment = true) :
    uri.withNormalizedWindowsDriveLetter.nonEmptySegments.head?.any isWindowsDriveUriSegment
      = true := by
  cases hhost : uri.host with
  | some host => simpa [withNormalizedWindowsDriveLetter, hhost] using h
  | none =>
    cases hsegments : uri.nonEmptySegments with
    | nil => simp [hsegments] at h
    | cons drive rest =>
      have hdrive : isWindowsDriveUriSegment drive = true := by simpa [hsegments] using h
      rw [nonEmptySegments_withNormalizedWindowsDriveLetter hhost hsegments hdrive]
      exact isWindowsDriveUriSegment_toUpper hdrive

theorem inferPathConvention_of_not_isOpaque {uri : PathUri} (h : uri.isOpaque = false) :
    uri.inferPathConvention =
      if uri.host.isSome then some .windows
      else if uri.nonEmptySegments.head?.any isWindowsDriveUriSegment then some .windows
      else some .posix := by
  rw [isOpaque, Option.isSome_eq_false_iff, Option.isNone_iff_eq_none] at h
  unfold inferPathConvention
  rw [h]

theorem location_posix {uri : PathUri} {place : Location} (h : uri.location = some place)
    (hposix : uri.inferPathConvention = some .posix) : place = ⟨none, .posix, place.names⟩ := by
  obtain ⟨hkind, hconvention, -, hhost, -⟩ := location_eq_some_iff.mp h
  rw [hposix, Option.some_inj] at hconvention
  rw [inferPathConvention_of_not_isOpaque hkind] at hposix
  cases hlocal : uri.host with
  | some host => simp [hlocal] at hposix
  | none => rw [hconvention, ← hlocal, hhost]

/-- A URL that becomes a POSIX path is taken as it is. -/
theorem eq_of_ofUrl {url uri : PathUri} (hhost : url.host = none) (h : ofUrl url = some uri)
    (hconvention : uri.inferPathConvention = some .posix) (hkind : uri.isOpaque = false) :
    uri = url := by
  unfold ofUrl at h
  split_ifs at h with hnull hlocal
  · simp [hhost] at hlocal
  · have hdriveLetter : url.withNormalizedWindowsDriveLetter = uri := Option.some_inj.mp h
    subst hdriveLetter
    cases hdrive : url.nonEmptySegments.head?.any isWindowsDriveUriSegment with
    | false => exact withNormalizedWindowsDriveLetter_eq hdrive
    | true =>
      have hwindows := head?_withNormalizedWindowsDriveLetter hdrive
      rw [inferPathConvention_of_not_isOpaque hkind, if_pos hwindows] at hconvention
      rw [ite_self] at hconvention
      cases hconvention

/-! ## Joining a name -/

/-- A name that `join` appends to a POSIX path as it is. -/
structure PlainName (name : Str) : Prop where
  noNull : '\x00' ∉ name
  nonEmpty : name ≠ []
  notDots : name ≠ ['.'] ∧ name ≠ ['.', '.']
  relative : name.head? ≠ some '/'
  single : name.splitOn '/' = [name]
  notDrive : isWindowsDriveUriSegment (percentEncode name) = false
  notBase64 : base64Decode (percentEncode name) = none
  decoded : decodeBinary (percentEncode name) = asBytes name
  noSeparator : 47 ∉ asBytes name

variable {base : PathUri} {name : Str}

theorem PlainName.percentEncode_ne_nil (h : PlainName name) : percentEncode name ≠ [] := by
  intro hnil
  have hdecoded := h.decoded
  rw [hnil] at hdecoded
  exact h.nonEmpty (asBytes_eq_nil_iff.mp hdecoded.symm)

theorem PlainName.joinComponent_eq (h : PlainName name) (convention : PathConvention)
    (segments : List Str) (depth : ℕ) :
    joinComponent convention (segments, depth) name = (pushSegment segments name, depth + 1) := by
  unfold joinComponent
  have hdots : name ≠ "..".toList := h.notDots.2
  rw [if_neg (by simp [h.nonEmpty, h.notDots.1]), if_neg hdots]

theorem join_plainName [UrlHosts] (hname : PlainName name)
    (hconvention : base.inferPathConvention = some .posix) (hkind : base.isOpaque = false) :
    base.join name = ofUrl { base with segments := pushSegment (popIfEmpty base.segments) name } := by
  have hrelative : fromAbsoluteNativePath name .posix = none := by
    have hparse : parsePosixPath name = none := by
      unfold parsePosixPath
      split
      · exact absurd rfl hname.relative
      · rfl
    simp [fromAbsoluteNativePath, hparse]
  have hsegments : pathSegments .posix name = [name] := hname.single
  unfold join
  rw [if_neg (by simp [hname.noNull]), if_neg hname.nonEmpty, hconvention]
  simp only [Option.bind_eq_bind, Option.bind_some, hrelative, withoutDrive, hkind,
    Bool.false_eq_true, if_false, isWindowsRootRelative, hsegments, foldl_cons,
    foldl_nil, hname.joinComponent_eq]

theorem nonEmptySegments_pushSegment (hname : percentEncode name ≠ []) (segments : List Str) :
    (pushSegment (popIfEmpty segments) name).filter (· ≠ []) =
      segments.filter (· ≠ []) ++ [percentEncode name] := by
  have hpop : (popIfEmpty segments).filter (· ≠ []) = segments.filter (· ≠ []) := by
    unfold popIfEmpty
    split_ifs with hlast
    · conv_rhs => rw [← dropLast_append_getLast? [] hlast.2]
      simp
    · rfl
  unfold pushSegment
  split_ifs with hroot
  · rw [← hpop, hroot]
    simp [hname]
  · rw [filter_append, hpop]
    simp [hname]

/-- The URI that ends in a plain name is not an opaque fallback. -/
theorem isOpaque_pushSegment (hname : PlainName name) (host : Option Str) (segments : List Str) :
    isOpaque ⟨host, pushSegment segments name⟩ = false := by
  have hlast : (pushSegment segments name).getLast? = some (percentEncode name) := by
    unfold pushSegment
    split_ifs <;> simp
  unfold isOpaque decodeBadPathUri
  split
  case h_1 zero bad path encoded hhost hsegments =>
    have hencoded : encoded = percentEncode name := by
      have hlast' : pushSegment segments name = [zero, bad, path, encoded] := hsegments
      rw [hlast'] at hlast
      simpa using hlast
    rw [hencoded, hname.notBase64]
    split_ifs <;> rfl
  case h_2 => rfl

end PathUri

namespace NativePath

variable {path : NativePath} {place : Location}

theorem bytes_ne_nil (path : NativePath) : path.bytes ≠ [] := by
  unfold bytes
  split_ifs with hempty
  · simp
  · cases hcomponents : path.components with
    | nil => exact absurd hcomponents hempty
    | cons component rest => simp

theorem bytes_lt (path : NativePath) : ∀ b ∈ path.bytes, b < 256 := by
  intro b hb
  unfold bytes at hb
  split_ifs at hb
  · rw [mem_singleton.mp hb]
    omega
  · obtain ⟨component, hcomponent, hmem⟩ := mem_flatMap.mp hb
    rcases mem_cons.mp hmem with rfl | hmem
    · omega
    · exact (path.normal component hcomponent).2.2.2.2 b hmem

theorem percentEncodeBytes_ne_nil {component : List ℕ} (h : component ∈ path.components) :
    percentEncodeBytes component ≠ [] := by
  have hdecode := decodeBinary_percentEncodeBytes (path.normal component h).2.2.2.2
  intro hnil
  rw [hnil] at hdecode
  exact (path.normal component h).1 hdecode.symm

/-- If the URI of a path has a location, then it is the one with its components. -/
theorem place_of_location (h : path.uri.location = some place) : place = path.place := by
  have hfallback := isOpaque_fromOpaquePathBytes path.bytes_ne_nil path.bytes_lt
  unfold uri at h
  dsimp only at h
  split at h
  case h_2 =>
    rw [location, if_pos hfallback] at h
    cases h
  case h_1 uri hurl =>
    split_ifs at h with hposix
    · obtain ⟨hkind, hconvention, -, hhost, hnames⟩ := location_eq_some_iff.mp h
      have hplaceConvention : place.convention = .posix :=
        Option.some_inj.mp (hconvention.symm.trans hposix.2)
      have heq := eq_of_ofUrl rfl hurl hposix.2 hkind
      rw [heq] at hhost hnames
      rw [hplaceConvention] at hnames
      have hcomponents : place.names = path.components := by
        rw [← hnames]
        unfold nonEmptySegments
        split_ifs with hempty
        · simp [hempty]
        · have hall : ∀ segment ∈ path.components.map percentEncodeBytes,
              decide (segment ≠ []) = true := by
            intro segment hsegment
            obtain ⟨component, hcomponent, rfl⟩ := mem_map.mp hsegment
            simpa using percentEncodeBytes_ne_nil hcomponent
          rw [filter_eq_self.mpr hall, map_map]
          calc path.components.map (segmentKey .posix ∘ percentEncodeBytes)
              = path.components.map id := by
                apply map_congr_left
                intro component hcomponent
                exact decodeBinary_percentEncodeBytes (path.normal component hcomponent).2.2.2.2
            _ = path.components := map_id _
      cases place
      simp_all [place]
    · rw [location, if_pos hfallback] at h
      cases h

end NativePath

end Codex
