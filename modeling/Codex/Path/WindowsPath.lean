import Codex.Path.NativePath

/-!
# Names under Windows paths

A URL becomes a path with the letter of its drive in upper case, and names are compared
up to case, so the path lies where the segments of the URL say.  A plain name joined to a
path of text is again a path of text, one name further down, on either system.
-/

namespace Codex

open Text Bytes List

namespace PathUri

variable {uri url base descendant : PathUri} {name : Str} {place upper : Location}

/-! ## The letter of a drive -/

/-- A drive is the same up to case when its letter is normalised. -/
theorem foldCase_asBytes_drive {drive : Str} (h : isWindowsDriveUriSegment drive = true) :
    foldCase (asBytes (drive.modifyHead Char.toUpper)) = foldCase (asBytes drive) := by
  have hcons : ∀ (c : Char) (rest : Str), isAsciiAlphabetic c = true →
      foldCase (asBytes (c.toUpper :: rest)) = foldCase (asBytes (c :: rest)) := by
    intro c rest hc
    have hupper : asBytes (c.toUpper :: rest) = asBytes [c.toUpper] ++ asBytes rest :=
      asBytes_append [c.toUpper] rest
    have hlower : asBytes (c :: rest) = asBytes [c] ++ asBytes rest := asBytes_append [c] rest
    rw [hupper, hlower]
    unfold foldCase
    rw [map_append, map_append]
    exact congrArg (· ++ _) (of_isAsciiAlphabetic
      (P := fun c => foldCase (asBytes [c.toUpper]) = foldCase (asBytes [c])) hc (by decide))
  unfold isWindowsDriveUriSegment at h
  split at h
  · exact hcons _ _ h
  · exact hcons _ _ h
  · exact hcons _ _ h
  · cases h

theorem hasEncodedSeparator_congr {segment segment' : Str} (convention : PathConvention)
    (h : foldCase (asBytes segment) = foldCase (asBytes segment')) :
    hasEncodedSeparator convention segment = hasEncodedSeparator convention segment' := by
  have hfold : ∀ bytes : List ℕ,
      (bytes.any fun b => b = 47 || (convention = .windows && b = 92)) =
        (foldCase bytes).any fun b => b = 47 || (convention = .windows && b = 92) := by
    intro bytes
    simp [foldCase, any_map, Function.comp_def, toAsciiLowercase_eq_iff]
  have hdecoded : foldCase (decodeBinary segment) = foldCase (decodeBinary segment') :=
    foldCase_percentDecode_congr h
  unfold hasEncodedSeparator
  rw [hfold, hdecoded, ← hfold]

theorem host_withNormalizedWindowsDriveLetter (uri : PathUri) :
    uri.withNormalizedWindowsDriveLetter.host = uri.host := by
  unfold withNormalizedWindowsDriveLetter
  split_ifs
  · rfl
  · dsimp only
    split
    · split_ifs <;> rfl
    · rfl

/-- A path with a drive is not an opaque fallback. -/
theorem isOpaque_of_drive (h : uri.nonEmptySegments.head?.any isWindowsDriveUriSegment = true) :
    uri.isOpaque = false := by
  unfold isOpaque decodeBadPathUri
  split
  case h_1 zero bad path encoded hhost hsegments =>
    split_ifs with hfallback
    · rw [nonEmptySegments, hsegments, hfallback.1] at h
      exact absurd h (by simp [isWindowsDriveUriSegment])
    · rfl
  case h_2 => rfl

/-- The normalised letter of the drive changes neither the location nor the text. -/
theorem location_withNormalizedWindowsDriveLetter (h : uri.location = some place) :
    uri.withNormalizedWindowsDriveLetter.location = some place ∧
      (uri.decodesToText = true → uri.withNormalizedWindowsDriveLetter.decodesToText = true) := by
  cases hdrive : uri.nonEmptySegments.head?.any isWindowsDriveUriSegment with
  | false =>
    rw [withNormalizedWindowsDriveLetter_eq hdrive]
    exact ⟨h, id⟩
  | true =>
    cases hhost : uri.host with
    | some host =>
      have hsame : uri.withNormalizedWindowsDriveLetter = uri := by
        simp [withNormalizedWindowsDriveLetter, hhost]
      rw [hsame]
      exact ⟨h, id⟩
    | none =>
      obtain ⟨hkind, hconvention, hany, hplaceHost, hnames⟩ := location_eq_some_iff.mp h
      have hupper := head?_withNormalizedWindowsDriveLetter hdrive
      cases hsegments : uri.nonEmptySegments with
      | nil => simp [hsegments] at hdrive
      | cons drive rest =>
        have hletter : isWindowsDriveUriSegment drive = true := by
          simpa [hsegments] using hdrive
        have hnormalized := nonEmptySegments_withNormalizedWindowsDriveLetter hhost hsegments
          hletter
        have hfold := foldCase_asBytes_drive hletter
        have hwindows : uri.inferPathConvention = some .windows := by
          rw [inferPathConvention_of_not_isOpaque hkind, hhost, hdrive]
          rfl
        have hupperKind := isOpaque_of_drive hupper
        have hupperWindows :
            uri.withNormalizedWindowsDriveLetter.inferPathConvention = some .windows := by
          rw [inferPathConvention_of_not_isOpaque hupperKind, hupper]
          simp
        have hplace : place.convention = .windows :=
          Option.some_inj.mp (hconvention.symm.trans hwindows)
        rw [hplace] at hany hnames
        rw [hsegments] at hany hnames
        refine ⟨location_eq_some_iff.mpr ⟨hupperKind, ?_, ?_, ?_, ?_⟩, ?_⟩
        · rw [hupperWindows, hplace]
        · rw [hplace, hnormalized, any_cons, hasEncodedSeparator_congr .windows hfold]
          exact hany
        · rw [host_withNormalizedWindowsDriveLetter, hplaceHost]
        · rw [hplace, hnormalized, ← hnames]
          exact congrArg (· :: _) (foldCase_decodeUriPath_congr hfold)
        · have hvalid : validUtf8 (decodeBinary (drive.modifyHead Char.toUpper)) =
              validUtf8 (decodeBinary drive) :=
            validUtf8_congr (foldCase_percentDecode_congr hfold)
          simp [decodesToText, hwindows, hupperWindows, hnormalized, hsegments, hvalid]

/-! ## Joining a name -/

/-- A name that `join` appends to a path of either system as it is. -/
structure PlainWindowsName [UrlHosts] (name : Str) : Prop extends PlainName name where
  relativeWindows : fromAbsoluteNativePath name .windows = none
  keepsDrive : ∀ base : PathUri, base.withoutDrive .windows name = some name
  belowBase : isWindowsRootRelative .windows name = false
  singleWindows : pathSegments .windows name = [name]
  noBackslash : 92 ∉ asBytes name
  text : validUtf8 (asBytes name) = true

theorem startsWith_of_joinDescendant [UrlHosts] (h : base.joinDescendant name = some descendant) :
    base.join name = some descendant ∧ descendant.startsWith base = true := by
  obtain ⟨joined, hjoined, h⟩ := Option.bind_eq_some_iff.mp h
  dsimp only at h
  split_ifs at h with hrefused
  obtain rfl := Option.some_inj.mp h
  simp only [Bool.or_eq_true, not_or, Bool.not_eq_true', Bool.not_eq_false] at hrefused
  exact ⟨hjoined, hrefused.2⟩

theorem host_of_startsWith (h : uri.startsWith base = true) : uri.host = base.host := by
  cases hsame : uri.same base with
  | true =>
    rcases same_cases hsame with rfl | ⟨-, -, hhost, -⟩
    · rfl
    · exact hhost
  | false =>
    obtain ⟨lower, upper, hlower, hupper, hbelow⟩ := (startsWith_iff_of_not_same hsame).mp h
    rw [(location_eq_some_iff.mp hlower).2.2.2.1, (location_eq_some_iff.mp hupper).2.2.2.1]
    exact hbelow.1

/-- What a URL with a location becomes, if the host is kept. -/
theorem eq_withNormalizedWindowsDriveLetter_of_ofUrl (h : ofUrl url = some uri)
    (hhost : uri.host = url.host) : uri = url.withNormalizedWindowsDriveLetter := by
  unfold ofUrl at h
  split_ifs at h with hnull hlocal
  · obtain rfl := Option.some_inj.mp h
    -- `localhost` is dropped, so the host is not kept
    rw [host_withNormalizedWindowsDriveLetter, hlocal] at hhost
    cases hhost
  · exact (Option.some_inj.mp h).symm

/-- A plain name leads one step down. -/
theorem location_pushSegment (hname : PlainName name) (hbase : base.location = some upper)
    (hseparator : hasEncodedSeparator upper.convention (percentEncode name) = false) :
    location { base with segments := pushSegment (popIfEmpty base.segments) name } =
      some { upper with names :=
        upper.names ++ [segmentKey upper.convention (percentEncode name)] } := by
  obtain ⟨hkind, hconvention, hany, hhost, hnames⟩ := location_eq_some_iff.mp hbase
  have hkind' := isOpaque_pushSegment hname base.host (popIfEmpty base.segments)
  have hsegments : nonEmptySegments ⟨base.host, pushSegment (popIfEmpty base.segments) name⟩ =
      base.nonEmptySegments ++ [percentEncode name] :=
    nonEmptySegments_pushSegment hname.percentEncode_ne_nil _
  refine location_eq_some_iff.mpr ⟨hkind', ?_, ?_, hhost, ?_⟩
  · -- a first name is no drive, and another one does not change the drive
    rw [inferPathConvention_of_not_isOpaque hkind] at hconvention
    rw [inferPathConvention_of_not_isOpaque hkind', ← hconvention, hsegments]
    cases base.nonEmptySegments with
    | nil => simp [hname.notDrive]
    | cons first rest => rfl
  · rw [hsegments, any_append, hany]
    simpa using hseparator
  · rw [hsegments, map_append, hnames]
    rfl

theorem location_joinDescendant [UrlHosts] (hname : PlainName name)
    (hbase : base.location = some upper) (hposix : upper.convention = .posix)
    (h : base.joinDescendant name = some descendant) :
    descendant.location = some { upper with names := upper.names ++ [asBytes name] } := by
  obtain ⟨hkind, hconvention, -⟩ := location_eq_some_iff.mp hbase
  obtain ⟨hjoin, hinside⟩ := startsWith_of_joinDescendant h
  rw [join_plainName hname (hposix ▸ hconvention) hkind] at hjoin
  have hseparator : hasEncodedSeparator upper.convention (percentEncode name) = false := by
    have hslash : ∀ b ∈ asBytes name, b ≠ 47 := fun b hb heq => hname.noSeparator (heq ▸ hb)
    simpa [hasEncodedSeparator, hname.decoded, hposix] using hslash
  have hurl := location_pushSegment hname hbase hseparator
  have hhost : descendant.host = base.host := host_of_startsWith hinside
  rw [eq_withNormalizedWindowsDriveLetter_of_ofUrl hjoin hhost,
    (location_withNormalizedWindowsDriveLetter hurl).1, hposix, segmentKey, hname.decoded]

/-- A plain name leads one step down on either system, and from text to text. -/
theorem location_joinDescendant_plain [UrlHosts] (hname : PlainWindowsName name)
    (hbase : base.location = some upper) (htext : base.decodesToText = true)
    (h : base.joinDescendant name = some descendant) :
    descendant.location =
        some { upper with names := upper.names ++ [segmentKey upper.convention (percentEncode name)] } ∧
      descendant.decodesToText = true := by
  cases hsystem : upper.convention with
  | posix =>
    have hlocation := location_joinDescendant hname.toPlainName hbase hsystem h
    refine ⟨?_, decodesToText_of_posix ?_⟩
    · rw [hlocation, segmentKey, hname.decoded, hsystem]
    · rw [(location_eq_some_iff.mp hlocation).2.1, hsystem]
  | windows =>
    obtain ⟨hkind, hconvention, -⟩ := location_eq_some_iff.mp hbase
    rw [hsystem] at hconvention
    obtain ⟨hjoin, hinside⟩ := startsWith_of_joinDescendant h
    rw [join, if_neg (by simp [hname.noNull]), if_neg hname.nonEmpty, hconvention] at hjoin
    simp only [Option.bind_eq_bind, Option.bind_some, hname.relativeWindows, hname.keepsDrive, hkind,
      Bool.false_eq_true, if_false, hname.belowBase, hname.singleWindows, foldl_cons,
      foldl_nil, hname.joinComponent_eq] at hjoin
    have hseparator : hasEncodedSeparator upper.convention (percentEncode name) = false := by
      rw [hasEncodedSeparator, hname.decoded, any_eq_false]
      intro b hb hmatch
      simp only [Bool.or_eq_true, Bool.and_eq_true, decide_eq_true_eq] at hmatch
      rcases hmatch with rfl | ⟨-, rfl⟩
      · exact hname.noSeparator hb
      · exact hname.noBackslash hb
    have hurl := location_pushSegment hname.toPlainName hbase hseparator
    have hurlText : decodesToText { base with
        segments := pushSegment (popIfEmpty base.segments) name } = true := by
      have hurlConvention := (location_eq_some_iff.mp hurl).2.1
      rw [hsystem] at hurlConvention
      rw [decodesToText_iff hconvention] at htext
      rw [decodesToText_iff hurlConvention, nonEmptySegments,
        nonEmptySegments_pushSegment hname.percentEncode_ne_nil, forall_mem_append,
        forall_mem_singleton, hname.decoded]
      exact ⟨htext, hname.text⟩
    obtain ⟨hplace, hkeeps⟩ := location_withNormalizedWindowsDriveLetter hurl
    have hhost : descendant.host = base.host := host_of_startsWith hinside
    rw [eq_withNormalizedWindowsDriveLetter_of_ofUrl hjoin hhost, hplace, hsystem]
    exact ⟨rfl, hkeeps hurlText⟩

/-! ## The last ancestor -/

theorem length_parent_segments {parent : PathUri} (h : uri.parent = some parent) :
    parent.segments.length < uri.segments.length ∨ parent.segments = [[]] := by
  unfold PathUri.parent at h
  split_ifs at h
  obtain ⟨convention, -, h⟩ := Option.bind_eq_some_iff.mp h
  split_ifs at h
  obtain rfl := Option.some_inj.mp h
  have hpop : (popIfEmpty uri.segments).length ≤ uri.segments.length := by
    unfold popIfEmpty
    split_ifs
    · simp
    · exact le_refl _
  simp only [popSegment]
  split_ifs with hlong
  · left
    rw [length_dropLast]
    omega
  · right
    rfl

theorem parent_of_segments_eq (h : uri.segments = [[]]) : uri.parent = none := by
  have hnone : uri.nonEmptySegments = [] := by simp [nonEmptySegments, h]
  unfold parent
  split_ifs
  · rfl
  · cases uri.inferPathConvention with
    | none => rfl
    | some convention => simp [hnone]

/-- The ancestors end at a path without a parent. -/
theorem parent_lastAncestor {fuel : ℕ} (h : uri.segments.length ≤ fuel ∨ uri.segments = [[]]) :
    (lastAncestor fuel uri).parent = none := by
  induction fuel generalizing uri with
  | zero =>
    rcases h with hlength | hroot
    · cases hparent : (lastAncestor 0 uri).parent with
      | none => rfl
      | some parent =>
        have hsegments : uri.segments = [] := length_eq_zero_iff.mp (by omega)
        have hnone : uri.nonEmptySegments = [] := by simp [nonEmptySegments, hsegments]
        simp [lastAncestor, PathUri.parent, hnone] at hparent
    · exact parent_of_segments_eq hroot
  | succ fuel ih =>
    unfold lastAncestor
    cases hparent : uri.parent with
    | none => exact hparent
    | some parent =>
      apply ih
      rcases length_parent_segments hparent with hless | hroot
      · rcases h with hlength | huri
        · left
          omega
        · rw [parent_of_segments_eq huri] at hparent
          cases hparent
      · exact Or.inr hroot

/-- A POSIX path without a parent has no names, so that it is above every path. -/
theorem names_of_parent (h : uri.location = some place) (hposix : place.convention = .posix)
    (hparent : uri.parent = none) : place.names = [] := by
  obtain ⟨hkind, hconvention, -, -, hnames⟩ := location_eq_some_iff.mp h
  have hempty : uri.nonEmptySegments = [] := by
    by_contra hne
    have hdeep : ¬ uri.nonEmptySegments.length ≤ anchorDepth .posix := by
      simp only [anchorDepth]
      simpa using hne
    simp [parent, hkind, hconvention, hposix, hdeep] at hparent
  rw [← hnames, hempty]
  rfl

end PathUri

end Codex
