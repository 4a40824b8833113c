import Codex.Path.PathUri

/-!
# Where a path lies

A path with a lexical depth has a location: its host, its convention and the decoded
names on the way down to it.  Locations form a forest under `Below`: the locations
above one location are ordered by their depth.  `PathUri.startsWith` decides `Below`,
with one exception.  It starts with the equality of paths, which compares decoded
bytes, whereas names are compared by their spelling where the bytes are no text.  The
two agree if the base decodes to text, and always for POSIX paths.

`startsWith_laws` states the laws of containment for the comparisons that do compare bytes
(`ComparesBytes`): there `startsWith` is `Within` (`startsWith_iff_within`), which is transitive
and does not see the spelling.  `startsWith_respelled` has paths for which the laws fail.
-/

namespace Codex

open Text Bytes List

/-! ## Locations -/

/-- The host, and the names from the root downwards. -/
structure Location where
  host : Option Str
  convention : PathConvention
  names : List (List ℕ)
  deriving DecidableEq

namespace Location

def depth (location : Location) : ℕ := location.names.length

/-- At or below. -/
def Below (lower upper : Location) : Prop :=
  lower.host = upper.host ∧ lower.convention = upper.convention ∧ upper.names <+: lower.names

instance (lower upper : Location) : Decidable (Below lower upper) :=
  inferInstanceAs (Decidable (_ ∧ _ ∧ _))

variable {a b c : Location}

@[refl]
theorem Below.refl (a : Location) : Below a a := ⟨rfl, rfl, prefix_refl _⟩

theorem Below.trans (hab : Below a b) (hbc : Below b c) : Below a c :=
  ⟨hab.1.trans hbc.1, hab.2.1.trans hbc.2.1, hbc.2.2.trans hab.2.2⟩

theorem Below.depth_le (h : Below a b) : b.depth ≤ a.depth := h.2.2.length_le

/-- Of two locations above a third, the deeper one is below the other. -/
theorem Below.of_depth_le (hb : Below a b) (hc : Below a c) (hdepth : c.depth ≤ b.depth) :
    Below b c :=
  ⟨hb.1.symm.trans hc.1, hb.2.1.symm.trans hc.2.1, prefix_of_prefix_length_le hc.2.2 hb.2.2 hdepth⟩

/-- The first name of a location past its parent's is that of the child it lies in. -/
theorem Below.head?_drop {parent : List (List ℕ)} {name : List ℕ} (hb : Below a b)
    (hnames : b.names = parent ++ [name]) : (a.names.drop parent.length).head? = some name := by
  obtain ⟨rest, hrest⟩ := hb.2.2
  rw [← hrest, hnames, List.append_assoc, drop_left]
  rfl

end Location

namespace PathUri

/-! ## Segments up to equality -/

/-- What two segments are compared by. -/
def segmentKey : PathConvention → Str → List ℕ
  | .posix, segment => decodeBinary segment
  | .windows, segment => foldCase (decodeUriPath segment)

theorem foldCase_decodeUriPath_congr {path base : Str}
    (h : foldCase (asBytes path) = foldCase (asBytes base)) :
    foldCase (decodeUriPath path) = foldCase (decodeUriPath base) := by
  have hdecoded : foldCase (decodeBinary path) = foldCase (decodeBinary base) :=
    foldCase_percentDecode_congr h
  unfold decodeUriPath
  rw [validUtf8_congr hdecoded]
  split_ifs
  · exact hdecoded
  · exact h

theorem sameSegment_iff {convention : PathConvention} {path base : Str} :
    sameSegment convention path base = true ↔
      segmentKey convention path = segmentKey convention base := by
  cases convention with
  | posix => simp [sameSegment, segmentKey]
  | windows =>
    simp only [sameSegment, Bool.or_eq_true, decide_eq_true_eq]
    constructor
    · rintro (hspelling | hdecoded)
      · exact foldCase_decodeUriPath_congr hspelling
      · exact hdecoded
    · exact .inr

theorem nativePathSegmentsStartWith_iff {convention : PathConvention} {path base : List Str} :
    nativePathSegmentsStartWith path base convention = true ↔
      base.map (segmentKey convention) <+: path.map (segmentKey convention) := by
  induction base generalizing path with
  | nil => simp [nativePathSegmentsStartWith]
  | cons segment rest ih =>
    cases path with
    | nil => simp [nativePathSegmentsStartWith]
    | cons first others =>
      have hih := @ih others
      simp only [nativePathSegmentsStartWith, zip_cons_cons, all_cons,
        length_cons, Nat.add_le_add_iff_right, Bool.and_eq_true, decide_eq_true_eq,
        map_cons, cons_prefix_cons, sameSegment_iff, ← hih]
      constructor
      · rintro ⟨hlength, hfirst, hrest⟩
        exact ⟨hfirst.symm, hlength, hrest⟩
      · rintro ⟨hfirst, hlength, hrest⟩
        exact ⟨hlength, hfirst.symm, hrest⟩

/-! ## The location of a path -/

def location (uri : PathUri) : Option Location := do
  if uri.isOpaque then none
  else
    let convention ← uri.inferPathConvention
    let segments ← uri.containmentPathSegments convention
    return ⟨uri.host, convention, segments.map (segmentKey convention)⟩

variable {uri path base : PathUri} {place lower upper : Location}

theorem containmentPathSegments_eq_some_iff {convention : PathConvention} {segments : List Str} :
    uri.containmentPathSegments convention = some segments ↔
      uri.nonEmptySegments.any (hasEncodedSeparator convention) = false ∧
        uri.nonEmptySegments = segments := by
  unfold containmentPathSegments
  split_ifs with hany
  · simp [hany]
  · simp [Bool.eq_false_iff.mpr hany]

/-- A path that is not opaque and has no encoded separator lies where its segments say. -/
theorem location_eq_some_iff :
    uri.location = some place ↔
      uri.isOpaque = false ∧ uri.inferPathConvention = some place.convention ∧
        uri.nonEmptySegments.any (hasEncodedSeparator place.convention) = false ∧
        uri.host = place.host ∧
        uri.nonEmptySegments.map (segmentKey place.convention) = place.names := by
  unfold location
  split_ifs with hfallback
  · simp [hfallback]
  · simp only [Option.bind_eq_bind, Option.pure_def, Option.bind_eq_some_iff, Option.some_inj,
      containmentPathSegments_eq_some_iff]
    constructor
    · rintro ⟨convention, hconvention, segments, ⟨hany, rfl⟩, rfl⟩
      exact ⟨Bool.eq_false_iff.mpr hfallback, hconvention, hany, rfl, rfl⟩
    · rintro ⟨-, hconvention, hany, hhost, hnames⟩
      refine ⟨place.convention, hconvention, _, ⟨hany, rfl⟩, ?_⟩
      rw [hhost, hnames]

theorem lexicalDepth_eq (uri : PathUri) : uri.lexicalDepth = uri.location.map Location.depth := by
  unfold lexicalDepth location
  split_ifs
  · rfl
  · cases uri.inferPathConvention with
    | none => rfl
    | some convention =>
      cases hsegments : uri.containmentPathSegments convention with
      | none => simp [hsegments]
      | some segments => simp [hsegments, Location.depth]

theorem lexicalDepth_eq_some_iff {depth : ℕ} :
    uri.lexicalDepth = some depth ↔ ∃ place, uri.location = some place ∧ place.depth = depth := by
  rw [lexicalDepth_eq, Option.map_eq_some_iff]

theorem exists_location_of_lexicalDepth (h : uri.lexicalDepth.isSome = true) :
    ∃ place, uri.location = some place := by
  rw [lexicalDepth_eq, Option.isSome_map] at h
  exact Option.isSome_iff_exists.mp h

/-! ## Equality of paths -/

/-- What the comparison of Windows paths looks at falls into the decoded segments. -/
theorem decodeBinary_encodedPath (host : Option Str) (segments : List Str) :
    decodeBinary (encodedPath ⟨host, segments⟩) =
      (segments.map decodeBinary).flatMap (47 :: ·) := by
  have hcons : ∀ rest : Str, decodeBinary ('/' :: rest) = 47 :: decodeBinary rest := by
    intro rest
    have happend : asBytes ('/' :: rest) = 47 :: asBytes rest := asBytes_append ['/'] rest
    rw [decodeBinary, happend, percentDecode_cons_of_ne (by decide)]
    rfl
  induction segments with
  | nil => rfl
  | cons segment rest ih =>
    have hhead : encodedPath ⟨host, segment :: rest⟩ =
        '/' :: (segment ++ encodedPath ⟨host, rest⟩) := rfl
    rw [hhead, hcons, map_cons, flatMap_cons, ← ih]
    refine congrArg (List.cons 47) ?_
    cases rest with
    | nil => simp [encodedPath, decodeBinary, asBytes, percentDecode]
    | cons next others =>
      have hnext : encodedPath ⟨host, next :: others⟩ =
          '/' :: (next ++ encodedPath ⟨host, others⟩) := rfl
      rw [hnext, hcons, decodeBinary, asBytes_append]
      have happend : ∀ tail : Str, asBytes ('/' :: tail) = 47 :: asBytes tail :=
        fun tail => asBytes_append ['/'] tail
      rw [happend, percentDecode_append_cons (by decide) (by decide)]
      rfl

/-- A Windows path that is compared by its decoded bytes. -/
structure Folds (uri : PathUri) : Prop where
  convention : uri.inferPathConvention = some .windows
  notOpaque : uri.isOpaque = false
  noSeparator : ∀ segment ∈ uri.segments, hasEncodedSeparator .windows segment = false

theorem windowsIdentityPathBytes_eq_some {bytes : List ℕ}
    (h : uri.windowsIdentityPathBytes = some bytes) :
    uri.Folds ∧ (uri.segments.map decodeBinary).flatMap (47 :: ·) = bytes := by
  unfold windowsIdentityPathBytes at h
  split_ifs at h with hnot
  push Not at hnot
  obtain ⟨hconvention, hfallback, hseparator⟩ := hnot
  rw [← decodeBinary_encodedPath uri.host]
  refine ⟨⟨hconvention, Bool.eq_false_iff.mpr hfallback, ?_⟩, Option.some_inj.mp h⟩
  simpa using hseparator

theorem Folds.slash_notMem (h : uri.Folds) {bytes : List ℕ}
    (hmem : bytes ∈ uri.segments.map (foldCase ∘ decodeBinary)) : 47 ∉ bytes := by
  obtain ⟨segment, hsegment, rfl⟩ := mem_map.mp hmem
  have hnone := h.noSeparator segment hsegment
  simp only [hasEncodedSeparator, any_eq_false] at hnone
  simp only [Function.comp_apply, foldCase, mem_map, toAsciiLowercase_eq_iff, Nat.reduceLT,
    true_or, exists_eq_right]
  intro hslash
  simpa using hnone 47 hslash

/-- Equal paths are spelled alike, or are Windows paths with the same decoded segments up to
case. -/
theorem same_cases :
    path.same base = true → path = base ∨
      path.Folds ∧ base.Folds ∧ path.host = base.host ∧
        path.segments.map (foldCase ∘ decodeBinary) =
          base.segments.map (foldCase ∘ decodeBinary) := by
  intro h
  unfold same at h
  split_ifs at h with heq
  · exact .inl heq
  · right
    cases hpath : path.windowsIdentityPathBytes with
    | none => simp [hpath] at h
    | some bytes =>
      cases hbase : base.windowsIdentityPathBytes with
      | none => simp [hbase] at h
      | some bytes' =>
        simp only [hpath, hbase, decide_eq_true_eq] at h
        obtain ⟨hhost, hbytes⟩ := h
        obtain ⟨hfolds, rfl⟩ := windowsIdentityPathBytes_eq_some hpath
        obtain ⟨hfolds', rfl⟩ := windowsIdentityPathBytes_eq_some hbase
        refine ⟨hfolds, hfolds', hhost, ?_⟩
        rw [foldCase_flatMap_slash, foldCase_flatMap_slash, map_map, map_map] at hbytes
        exact flatMap_cons_injective (fun _ hmem => hfolds.slash_notMem hmem)
          (fun _ hmem => hfolds'.slash_notMem hmem) hbytes

/-- On Windows, the names of the path are text. -/
def decodesToText (uri : PathUri) : Bool :=
  uri.inferPathConvention ≠ some .windows ||
    uri.nonEmptySegments.all fun segment => validUtf8 (decodeBinary segment)

theorem decodesToText_iff (h : uri.inferPathConvention = some .windows) :
    uri.decodesToText = true ↔
      ∀ segment ∈ uri.nonEmptySegments, validUtf8 (decodeBinary segment) = true := by
  simp [decodesToText, h]

theorem decodeBinary_eq_nil_iff {segment : Str} : decodeBinary segment = [] ↔ segment = [] := by
  rw [decodeBinary, percentDecode_eq_nil_iff, asBytes_eq_nil_iff]

theorem eq_nil_iff_of_foldCase {segment segment' : Str}
    (h : foldCase (decodeBinary segment) = foldCase (decodeBinary segment')) :
    segment = [] ↔ segment' = [] := by
  have hlength := congrArg List.length h
  simp only [foldCase, length_map] at hlength
  rw [← decodeBinary_eq_nil_iff, ← @decodeBinary_eq_nil_iff segment', ← length_eq_zero_iff,
    hlength, length_eq_zero_iff]

theorem map_segmentKey_eq {segments segments' : List Str}
    (htext : ∀ segment ∈ segments'.filter (· ≠ []), validUtf8 (decodeBinary segment) = true)
    (h : segments.map (foldCase ∘ decodeBinary) = segments'.map (foldCase ∘ decodeBinary)) :
    (segments.filter (· ≠ [])).map (segmentKey .windows) =
      (segments'.filter (· ≠ [])).map (segmentKey .windows) := by
  induction segments generalizing segments' with
  | nil =>
    cases segments' with
    | nil => rfl
    | cons segment rest => simp at h
  | cons segment rest ih =>
    cases segments' with
    | nil => simp at h
    | cons segment' rest' =>
      simp only [map_cons, Function.comp_apply, List.cons.injEq] at h
      obtain ⟨hfirst, hrest⟩ := h
      have hnil := eq_nil_iff_of_foldCase hfirst
      by_cases hempty : segment' = []
      · have hempty' := hnil.mpr hempty
        subst hempty hempty'
        have htail : ∀ segment ∈ rest'.filter (· ≠ []),
            validUtf8 (decodeBinary segment) = true := by simpa using htext
        simpa using ih htail hrest
      · have hempty' := mt hnil.mp hempty
        rw [filter_cons_of_pos (by simpa using hempty'), filter_cons_of_pos (by simpa using hempty)]
        rw [filter_cons_of_pos (by simpa using hempty)] at htext
        have hvalid := htext segment' (mem_cons_self ..)
        have hvalid' : validUtf8 (decodeBinary segment) = true := by rwa [validUtf8_congr hfirst]
        have hkey : segmentKey .windows segment = segmentKey .windows segment' := by
          simp only [segmentKey, decodeUriPath, hvalid, hvalid', if_true]
          exact hfirst
        rw [map_cons, map_cons, hkey,
          ih (fun other hother => htext other (mem_cons_of_mem _ hother)) hrest]

theorem Folds.exists_location (h : uri.Folds) : ∃ place, uri.location = some place := by
  refine ⟨⟨uri.host, .windows, uri.nonEmptySegments.map (segmentKey .windows)⟩,
    location_eq_some_iff.mpr ⟨h.notOpaque, h.convention, ?_, rfl, rfl⟩⟩
  rw [any_eq_false]
  intro segment hsegment
  simp [h.noSeparator segment (mem_of_mem_filter hsegment)]

/-- A path equal to one of text lies where that one lies. -/
theorem location_of_same (hsame : path.same base = true) (hbase : base.location = some place)
    (htext : base.decodesToText = true) : path.location = some place := by
  rcases same_cases hsame with rfl | ⟨hfolds, hfolds', hhost, hsegments⟩
  · exact hbase
  · obtain ⟨place', hplace'⟩ := hfolds.exists_location
    obtain ⟨-, hconvention, -, hbaseHost, hnames⟩ := location_eq_some_iff.mp hbase
    obtain ⟨-, hconvention', -, hpathHost, hnames'⟩ := location_eq_some_iff.mp hplace'
    have hwindows : place.convention = .windows :=
      Option.some_inj.mp (hconvention.symm.trans hfolds'.convention)
    have hwindows' : place'.convention = .windows :=
      Option.some_inj.mp (hconvention'.symm.trans hfolds.convention)
    rw [hwindows] at hnames
    rw [hwindows'] at hnames'
    have hkeys : place'.names = place.names := by
      rw [← hnames, ← hnames']
      exact map_segmentKey_eq ((decodesToText_iff hfolds'.convention).mp htext) hsegments
    cases place
    cases place'
    simp_all

theorem same_symm (h : path.same base = true) : base.same path = true := by
  unfold same at h ⊢
  split_ifs at h with heq
  · rw [if_pos heq.symm]
  · rw [if_neg (Ne.symm heq)]
    cases hpath : path.windowsIdentityPathBytes <;> cases hbase : base.windowsIdentityPathBytes <;>
      simp only [hpath, hbase] at h ⊢
    · cases h
    · cases h
    · cases h
    · rw [decide_eq_true_eq] at h ⊢
      exact ⟨h.1.symm, h.2.symm⟩

/-- Being text does not depend on the spelling. -/
theorem decodesToText_of_same (hsame : path.same base = true) (htext : base.decodesToText = true) :
    path.decodesToText = true := by
  rcases same_cases hsame with rfl | ⟨hfolds, hfolds', -, hsegments⟩
  · exact htext
  · rw [decodesToText_iff hfolds'.convention] at htext
    rw [decodesToText_iff hfolds.convention]
    intro segment hsegment
    obtain ⟨hmem, hnonempty⟩ := mem_filter.mp hsegment
    have hfolded : foldCase (decodeBinary segment) ∈ base.segments.map (foldCase ∘ decodeBinary) := by
      rw [← hsegments]
      exact mem_map.mpr ⟨segment, hmem, rfl⟩
    obtain ⟨segment', hmem', hsegment'⟩ := mem_map.mp hfolded
    rw [← validUtf8_congr hsegment']
    refine htext segment' (mem_filter.mpr ⟨hmem', ?_⟩)
    simpa [eq_nil_iff_of_foldCase hsegment'] using hnonempty

/-- Equal paths have the same convention. -/
theorem inferPathConvention_of_same (hsame : path.same base = true) :
    path.inferPathConvention = base.inferPathConvention := by
  rcases same_cases hsame with rfl | ⟨hfolds, hfolds', -⟩
  · rfl
  · rw [hfolds.convention, hfolds'.convention]

/-! ## Containment -/

theorem exists_convention (h : uri.isOpaque = false) :
    ∃ convention, uri.inferPathConvention = some convention := by
  unfold isOpaque at h
  rw [Option.isSome_eq_false_iff, Option.isNone_iff_eq_none] at h
  unfold inferPathConvention
  rw [h]
  split_ifs <;> exact ⟨_, rfl⟩

/-- Containment by segments, for paths that are not equal. -/
theorem startsWith_iff_of_not_same (hsame : path.same base = false) :
    path.startsWith base = true ↔
      ∃ lower upper, path.location = some lower ∧ base.location = some upper ∧
        lower.Below upper := by
  unfold startsWith
  rw [hsame, if_neg Bool.false_ne_true]
  constructor
  · intro h
    split_ifs at h with hfallback hhost hconvention
    obtain ⟨hpath, hbase⟩ : path.isOpaque = false ∧ base.isOpaque = false := by
      simpa using hfallback
    obtain ⟨convention, hpathConvention⟩ := exists_convention hpath
    rw [not_not] at hhost hconvention
    have hbaseConvention := hconvention.symm.trans hpathConvention
    rw [hpathConvention, Option.getD_some] at h
    cases hpathSegments : path.containmentPathSegments convention with
    | none => simp [hpathSegments] at h
    | some pathSegments =>
      cases hbaseSegments : base.containmentPathSegments convention with
      | none => simp [hbaseSegments] at h
      | some baseSegments =>
        simp only [hpathSegments, hbaseSegments] at h
        obtain ⟨hpathAny, rfl⟩ := containmentPathSegments_eq_some_iff.mp hpathSegments
        obtain ⟨hbaseAny, rfl⟩ := containmentPathSegments_eq_some_iff.mp hbaseSegments
        refine ⟨⟨path.host, convention, path.nonEmptySegments.map (segmentKey convention)⟩,
          ⟨base.host, convention, base.nonEmptySegments.map (segmentKey convention)⟩,
          location_eq_some_iff.mpr ⟨hpath, hpathConvention, hpathAny, rfl, rfl⟩,
          location_eq_some_iff.mpr ⟨hbase, hbaseConvention, hbaseAny, rfl, rfl⟩, ?_⟩
        exact ⟨hhost, rfl, nativePathSegmentsStartWith_iff.mp h⟩
  · rintro ⟨lower, upper, hlower, hupper, hhosts, hconventions, hnames⟩
    obtain ⟨hpath, hpathConvention, hpathAny, hpathHost, hpathNames⟩ :=
      location_eq_some_iff.mp hlower
    obtain ⟨hbase, hbaseConvention, hbaseAny, hbaseHost, hbaseNames⟩ :=
      location_eq_some_iff.mp hupper
    rw [← hconventions] at hbaseConvention hbaseAny hbaseNames
    have hpathSegments := containmentPathSegments_eq_some_iff.mpr ⟨hpathAny, rfl⟩
    have hbaseSegments := containmentPathSegments_eq_some_iff.mpr ⟨hbaseAny, rfl⟩
    have hhost : path.host = base.host := by rw [hpathHost, hbaseHost, hhosts]
    simp only [hpath, hbase, hhost, hpathConvention, hbaseConvention, Bool.or_self,
      Bool.false_eq_true, ne_eq, not_true_eq_false, if_false, Option.getD_some, hpathSegments,
      hbaseSegments]
    rw [nativePathSegmentsStartWith_iff, hpathNames, hbaseNames]
    exact hnames

theorem startsWith_of_same (h : path.same base = true) : path.startsWith base = true := by
  unfold startsWith
  rw [if_pos h]

theorem same_refl (uri : PathUri) : uri.same uri = true := by
  simp [same]

/-- Paths that lie somewhere are contained in paths that lie somewhere. -/
theorem exists_location_of_startsWith (hpath : path.location = some lower)
    (h : path.startsWith base = true) : ∃ upper, base.location = some upper := by
  cases hsame : path.same base with
  | true =>
    rcases same_cases hsame with rfl | ⟨-, hfolds, -⟩
    · exact ⟨lower, hpath⟩
    · exact hfolds.exists_location
  | false =>
    obtain ⟨-, upper, -, hupper, -⟩ := (startsWith_iff_of_not_same hsame).mp h
    exact ⟨upper, hupper⟩

/-- For a base of text, containment is equality or being at or below its location. -/
theorem startsWith_iff (htext : base.decodesToText = true) :
    path.startsWith base = true ↔
      path = base ∨ ∃ lower upper, path.location = some lower ∧ base.location = some upper ∧
        lower.Below upper := by
  cases hsame : path.same base with
  | true =>
    refine iff_of_true (startsWith_of_same hsame) ?_
    rcases same_cases hsame with heq | ⟨-, hfolds, -⟩
    · exact .inl heq
    · obtain ⟨place, hplace⟩ := hfolds.exists_location
      exact .inr ⟨place, place, location_of_same hsame hplace htext, hplace, .refl place⟩
  | false =>
    have hne : path ≠ base := by
      rintro rfl
      simp [same_refl] at hsame
    rw [startsWith_iff_of_not_same hsame, or_iff_right hne]

/-- For a base of text, containment is being at or below its location. -/
theorem startsWith_iff_below (hpath : path.location = some lower)
    (hbase : base.location = some upper) (htext : base.decodesToText = true) :
    path.startsWith base = true ↔ lower.Below upper := by
  rw [startsWith_iff htext]
  constructor
  · rintro (rfl | ⟨lower', upper', hlower', hupper', hbelow⟩)
    · rw [hpath, Option.some_inj] at hbase
      exact hbase ▸ .refl lower
    · rw [hpath, Option.some_inj] at hlower'
      rw [hbase, Option.some_inj] at hupper'
      rwa [hlower', hupper']
  · intro hbelow
    exact .inr ⟨lower, upper, hpath, hbase, hbelow⟩

theorem decodesToText_of_posix (h : uri.inferPathConvention = some .posix) :
    uri.decodesToText = true := by
  simp [decodesToText, h]

/-- What contains a path contains everything below it. -/
theorem startsWith_of_below {inner : PathUri} (hinner : inner.location = some lower)
    (hpath : path.location = some upper) (hbelow : lower.Below upper)
    (htext : base.decodesToText = true) (h : path.startsWith base = true) :
    inner.startsWith base = true := by
  obtain ⟨top, htop⟩ := exists_location_of_startsWith hpath h
  have htopBelow := (startsWith_iff_below hpath htop htext).mp h
  exact (startsWith_iff_below hinner htop htext).mpr (hbelow.trans htopBelow)

/-! ## Containment as an order -/

/-- The decoded bytes of the names, up to case on Windows. -/
def nameBytes (uri : PathUri) : List (List ℕ) :=
  uri.nonEmptySegments.map fun segment =>
    if uri.inferPathConvention = some .windows then foldCase (decodeBinary segment)
    else decodeBinary segment

theorem names_eq_nameBytes (hplace : uri.location = some place)
    (htext : uri.decodesToText = true) : place.names = uri.nameBytes := by
  obtain ⟨-, hconvention, -, -, hnames⟩ := location_eq_some_iff.mp hplace
  rw [← hnames, nameBytes, hconvention]
  refine map_congr_left fun segment hsegment => ?_
  cases hwindows : place.convention with
  | posix => rfl
  | windows =>
    rw [hwindows] at hconvention
    have hvalid := (decodesToText_iff hconvention).mp htext segment hsegment
    simp [segmentKey, decodeUriPath, hvalid]

/-- At or below by the bytes of the names, whatever their spelling. -/
def Within (path base : PathUri) : Prop :=
  path = base ∨ path.location.isSome = true ∧ base.location.isSome = true ∧
    path.host = base.host ∧ path.inferPathConvention = base.inferPathConvention ∧
    base.nameBytes <+: path.nameBytes

/-- If the names of the two paths are compared at all, then as far as this comparison goes the first
`n` of them are found equal exactly if their bytes are. -/
def ComparesBytes (path base : PathUri) : Prop :=
  path.same base = false → ∀ lower ∈ path.location, ∀ upper ∈ base.location,
    lower.host = upper.host → lower.convention = upper.convention → upper.depth ≤ lower.depth →
    ∀ n ≤ upper.depth,
      (upper.names.take n <+: lower.names ↔ base.nameBytes.take n <+: path.nameBytes)

instance (path base : PathUri) : Decidable (ComparesBytes path base) :=
  inferInstanceAs (Decidable (_ → _))

theorem comparesBytes_of_decodesToText (hpath : path.decodesToText = true)
    (hbase : base.decodesToText = true) : ComparesBytes path base := by
  intro _ lower hlower upper hupper _ _ _ n _
  rw [names_eq_nameBytes hlower hpath, names_eq_nameBytes hupper hbase]

theorem Within.trans {inner : PathUri} (hinner : Within inner path) (hpath : Within path base) :
    Within inner base := by
  rcases hinner with rfl | ⟨hlocated, hmiddle, hhost, hconvention, hnames⟩
  · exact hpath
  · rcases hpath with rfl | ⟨-, hlocated', hhost', hconvention', hnames'⟩
    · exact .inr ⟨hlocated, hmiddle, hhost, hconvention, hnames⟩
    · exact .inr ⟨hlocated, hlocated', hhost.trans hhost', hconvention.trans hconvention',
        hnames'.trans hnames⟩

/-- Dropping the empty segments before or after decoding is the same. -/
theorem Folds.nameBytes_eq (h : uri.Folds) :
    uri.nameBytes = (uri.segments.map (foldCase ∘ decodeBinary)).filter (· ≠ []) := by
  rw [nameBytes, h.convention, filter_map]
  refine congrArg _ (filter_congr fun segment _ => ?_)
  simp [foldCase, decodeBinary_eq_nil_iff]

theorem within_of_same (h : path.same base = true) : Within path base := by
  rcases same_cases h with rfl | ⟨hfolds, hfolds', hhost, hsegments⟩
  · exact .inl rfl
  · refine .inr ⟨Option.isSome_iff_exists.mpr hfolds.exists_location,
      Option.isSome_iff_exists.mpr hfolds'.exists_location, hhost, ?_, ?_⟩
    · rw [hfolds.convention, hfolds'.convention]
    · have hbytes : base.nameBytes = path.nameBytes := by
        rw [hfolds.nameBytes_eq, hfolds'.nameBytes_eq, hsegments]
      exact hbytes ▸ prefix_refl _

theorem length_names (h : uri.location = some place) : place.depth = uri.nameBytes.length := by
  obtain ⟨-, -, -, -, hnames⟩ := location_eq_some_iff.mp h
  rw [Location.depth, ← hnames, length_map, nameBytes, length_map]

theorem startsWith_iff_within (h : ComparesBytes path base) :
    path.startsWith base = true ↔ Within path base := by
  cases hsame : path.same base with
  | true => exact iff_of_true (startsWith_of_same hsame) (within_of_same hsame)
  | false =>
    have hall : ∀ lower upper, path.location = some lower → base.location = some upper →
        lower.host = upper.host → lower.convention = upper.convention →
        (upper.names <+: lower.names ↔ base.nameBytes <+: path.nameBytes) := by
      intro lower upper hlower hupper hhost hconvention
      by_cases hdepth : upper.depth ≤ lower.depth
      · have hwhole := h hsame lower hlower upper hupper hhost hconvention hdepth _ le_rfl
        rwa [length_names hupper, take_length, ← length_names hupper, Location.depth,
          take_length] at hwhole
      · refine iff_of_false (fun hnames => hdepth hnames.length_le) fun hbytes => hdepth ?_
        rw [length_names hlower, length_names hupper]
        exact hbytes.length_le
    rw [startsWith_iff_of_not_same hsame]
    constructor
    · rintro ⟨lower, upper, hlower, hupper, hhost, hconvention, hnames⟩
      obtain ⟨-, hpathConvention, -, hpathHost, -⟩ := location_eq_some_iff.mp hlower
      obtain ⟨-, hbaseConvention, -, hbaseHost, -⟩ := location_eq_some_iff.mp hupper
      refine .inr ⟨by simp [hlower], by simp [hupper], by rw [hpathHost, hbaseHost, hhost],
        by rw [hpathConvention, hbaseConvention, hconvention], ?_⟩
      exact (hall lower upper hlower hupper hhost hconvention).mp hnames
    · rintro (rfl | ⟨hlower, hupper, hhost, hconvention, hbytes⟩)
      · simp [same_refl] at hsame
      · obtain ⟨lower, hlower⟩ := Option.isSome_iff_exists.mp hlower
        obtain ⟨upper, hupper⟩ := Option.isSome_iff_exists.mp hupper
        obtain ⟨-, hpathConvention, -, hpathHost, -⟩ := location_eq_some_iff.mp hlower
        obtain ⟨-, hbaseConvention, -, hbaseHost, -⟩ := location_eq_some_iff.mp hupper
        have hhosts : lower.host = upper.host := by rw [← hpathHost, ← hbaseHost, hhost]
        have hconventions : lower.convention = upper.convention := by
          rwa [hpathConvention, hbaseConvention, Option.some_inj] at hconvention
        exact ⟨lower, upper, hlower, hupper, hhosts, hconventions,
          (hall lower upper hlower hupper hhosts hconventions).mpr hbytes⟩

/-- Containment is an order of paths, whatever their spelling, as far as it compares the bytes of
the names; it does so for paths whose names are text. -/
theorem startsWith_laws (a b c a' b' : PathUri) :
    a.startsWith a = true ∧
      (ComparesBytes a b → ComparesBytes b c → ComparesBytes a c →
        a.startsWith b = true → b.startsWith c = true → a.startsWith c = true) ∧
      (ComparesBytes a b → ComparesBytes a' b' → a.same a' = true → b.same b' = true →
        a.startsWith b = a'.startsWith b') ∧
      (ComparesBytes a b → ComparesBytes b a → a.startsWith b = true → b.startsWith a = true →
        a.host = b.host ∧ a.inferPathConvention = b.inferPathConvention ∧
          a.nameBytes = b.nameBytes) ∧
      (a.decodesToText = true → b.decodesToText = true → ComparesBytes a b) := by
  refine ⟨startsWith_of_same (same_refl a), ?_, ?_, ?_, comparesBytes_of_decodesToText⟩
  · intro hab hbc hac h h'
    rw [startsWith_iff_within hab] at h
    rw [startsWith_iff_within hbc] at h'
    exact (startsWith_iff_within hac).mpr (h.trans h')
  · intro hab hab' ha hb
    rw [Bool.eq_iff_iff, startsWith_iff_within hab, startsWith_iff_within hab']
    constructor
    · intro h
      exact ((within_of_same (same_symm ha)).trans h).trans (within_of_same hb)
    · intro h
      exact ((within_of_same ha).trans h).trans (within_of_same (same_symm hb))
  · intro hab hba h h'
    rw [startsWith_iff_within hab] at h
    rw [startsWith_iff_within hba] at h'
    rcases h with rfl | ⟨-, -, hhost, hconvention, hnames⟩
    · exact ⟨rfl, rfl, rfl⟩
    · rcases h' with rfl | ⟨-, -, -, -, hnames'⟩
      · exact ⟨rfl, rfl, rfl⟩
      · exact ⟨hhost, hconvention, hnames'.eq_of_length_le hnames.length_le⟩

/-- Names that are no text, spelled alike up to case or reached by no comparison. -/
theorem startsWith_laws_drive :
    let a := ofSegments ["C:", "a%ff", "x"]
    let b := ofSegments ["c:", "A%FF"]
    a.decodesToText = false ∧ ComparesBytes a b ∧ ComparesBytes b (ofSegments ["C:"]) ∧
      ComparesBytes a (ofSegments ["C:"]) ∧ a.startsWith b = true ∧
      a.startsWith (ofSegments ["C:"]) = true ∧
      ComparesBytes b (ofSegments ["D:", "%61%ff"]) := by
  refine ⟨by decide, by decide, by decide, by decide, by decide, ?_, by decide⟩
  exact (startsWith_laws _ (ofSegments ["c:", "A%FF"]) _ (ofSegments []) (ofSegments [])).2.1
    (by decide) (by decide) (by decide) (by decide) (by decide)

/-- Names that are no text are compared by their spelling, equal paths by their bytes. -/
theorem startsWith_respelled :
    (ofSegments ["C:", "a%ff", "x"]).startsWith (ofSegments ["C:", "a%ff"]) = true ∧
      (ofSegments ["C:", "a%ff"]).same (ofSegments ["C:", "%61%ff"]) = true ∧
      (ofSegments ["C:", "a%ff"]).startsWith (ofSegments ["C:", "%61%ff"]) = true ∧
      (ofSegments ["C:", "a%ff", "x"]).startsWith (ofSegments ["C:", "%61%ff"]) = false ∧
      (ofSegments ["C:", "a%ff"]).startsWith (ofSegments ["C:", "a%25ff"]) = true ∧
      (ofSegments ["C:", "a%25ff"]).startsWith (ofSegments ["C:", "a%ff"]) = true ∧
      (ofSegments ["C:", "a%ff"]).nameBytes ≠ (ofSegments ["C:", "a%25ff"]).nameBytes := by
  decide

end PathUri

end Codex
