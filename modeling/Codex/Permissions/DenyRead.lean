import Codex.Lib.Except
import Codex.Permissions.Access

/-!
# Read denials that requirements impose

Managed requirements are a policy whose denials a selected policy has to keep.  The
validator asks that every required entry is among the selected ones and that no readable
concrete path of the selected policy is denied by the requirements.  Symbolic entries are
not expanded for this.  What follows for the access is proved at the end: at or below a
denied root everything is denied, as long as no readable symbolic entry leads below it.

The compiled globs and the native spelling of paths are parameters (`DenyGlobs`).

`keepsDenials_of_symbolicGrantsOutside` is the result, and `not_keepsDenials` has a policy for
each condition.  An accepted readable entry at or below a denied root is at the root itself
(`startsWith_of_readable`), and there the denial wins.
-/

namespace Codex

open Text Bytes FileSystemAccessMode PathUri List FileSystemSandboxEntry

/-- The `globset` crate and the rendering of paths as native text. -/
class DenyGlobs where
  Matcher : Type
  build : Str → PathConvention → Except Str Matcher
  isMatch : Matcher → List ℕ → Bool
  /-- `inferred_native_path_string`. -/
  nativeString : PathUri → Str
  validateGlobDirectory : PathUri → PathConvention → Except Str Unit

inductive InvalidDenyReadGlobBehavior where
  | failClosed
  | returnError
  deriving DecidableEq, Repr

/-- Prepared deny roots and globs. -/
structure PreparedReadDenyMatcher [DenyGlobs] where
  deniedRoots : List PathUri
  denyReadMatchers : List DenyGlobs.Matcher
  invalidPattern : Bool

section

variable [UrlHosts] [DenyGlobs]

def withForwardSlashes (text : Str) : Str := text.map fun c => if c = '\\' then '/' else c

def buildGlobMatcher (pattern : Str) (convention : PathConvention) : Except Str DenyGlobs.Matcher :=
  DenyGlobs.build (if convention = .windows then withForwardSlashes pattern else pattern) convention

/-- The absolute form of a deny pattern: patterns below `~` start at the home directory, others at
the working directory. -/
def denyReadGlob (context : FileSystemSandboxPolicyContext) (pattern : Str) : Except Str Str := do
  let isWindows : Bool := context.convention = some .windows
  let homeRelative :=
    match stripPrefix "~/".toList pattern with
    | some suffix => some suffix
    | none => if isWindows then stripPrefix "~\\".toList pattern else none
  let (root, pattern) ←
    match homeRelative with
    | some suffix =>
      match context.userHomeDir with
      | some home => .ok (home, suffix.dropWhile fun c => c = '/' || (isWindows && c = '\\'))
      | none =>
        .error ("unable to resolve deny-read glob pattern `".toList ++ pattern ++
          "` without executor home".toList)
    | none => .ok (context.cwd, pattern)
  let convention : PathConvention := if isWindows then .windows else .posix
  if (fromAbsoluteNativePath pattern convention).isNone then
    DenyGlobs.validateGlobDirectory root convention
  match root.join pattern with
  | some path => .ok (DenyGlobs.nativeString path)
  | none => .error ("unable to resolve deny-read glob pattern `".toList ++ pattern ++ "`".toList)

namespace FileSystemSandboxPolicy

variable (policy : FileSystemSandboxPolicy)

def denyPatterns : List Str :=
  (policy.entries.filter fun entry => entry.access = deny).filterMap fun entry =>
    match entry.path with
    | .globPattern pattern => some pattern
    | _ => none

variable (context : FileSystemSandboxPolicyContext)

def denyReadGlobs : Except Str (List Str) :=
  policy.denyPatterns.mapM (denyReadGlob context)

/-- The root lies where the root of the file system lies. -/
def isFileSystemRoot (root : PathUri) : Bool :=
  (fileSystemRoot context).any fun fileSystemRoot =>
    root.startsWith fileSystemRoot && fileSystemRoot.startsWith root

def deniedRoots : List PathUri :=
  (((policy.resolvedEntries context).filter fun entry => entry.2 = deny).filter fun entry =>
    !isFileSystemRoot context entry.1).map Prod.fst

/-- One pattern is compiled; whether a malformed one is an error depends on the caller. -/
def addDenyMatcher (convention : PathConvention) (behavior : InvalidDenyReadGlobBehavior)
    (prepared : PreparedReadDenyMatcher) (pattern : Str) : Except Str PreparedReadDenyMatcher :=
  match buildGlobMatcher pattern convention with
  | .ok matcher =>
    .ok { prepared with denyReadMatchers := prepared.denyReadMatchers ++ [matcher] }
  | .error err =>
    match behavior with
    | .failClosed => .ok { prepared with invalidPattern := true }
    | .returnError =>
      .error ("invalid deny-read glob pattern `".toList ++ pattern ++ "`: ".toList ++ err)

/-- The denied roots, and the denied globs as matchers; a glob that is invalid denies all or is an
error. -/
def prepareDenyReadMatcher (behavior : InvalidDenyReadGlobBehavior) :
    Except Str PreparedReadDenyMatcher :=
  match context.convention with
  | none => .ok ⟨policy.deniedRoots context, [], true⟩
  | some convention =>
    match policy.denyReadGlobs context with
    | .ok patterns =>
      patterns.foldlM (addDenyMatcher convention behavior) ⟨policy.deniedRoots context, [], false⟩
    | .error err =>
      match behavior with
      | .failClosed => .ok ⟨policy.deniedRoots context, [], true⟩
      | .returnError => .error err

/-- The text of the path that globs are matched against. -/
def globCandidate (convention : PathConvention) (path : PathUri) : List ℕ :=
  match convention with
  | .posix => decodeBinary path.encodedPath
  | .windows => asBytes (withForwardSlashes (DenyGlobs.nativeString path))

/-- What cannot be compared is denied. -/
def matchesPreparedReadDeny (path : PathUri) (context : FileSystemSandboxPolicyContext)
    (prepared : PreparedReadDenyMatcher) : Bool :=
  match context.convention with
  | none => true
  | some convention =>
    if !comparable path context then true
    else if prepared.invalidPattern then true
    else
      (prepared.deniedRoots.any fun root => path.startsWith root) ||
        prepared.denyReadMatchers.any fun matcher =>
          DenyGlobs.isMatch matcher (globCandidate convention path)

omit [UrlHosts] in
theorem matchesPreparedReadDeny_of_mem {path root : PathUri} {prepared : PreparedReadDenyMatcher}
    {context : FileSystemSandboxPolicyContext} (hroot : root ∈ prepared.deniedRoots)
    (hstarts : path.startsWith root = true) :
    matchesPreparedReadDeny path context prepared = true := by
  unfold matchesPreparedReadDeny
  cases context.convention with
  | none => rfl
  | some convention =>
    split_ifs
    · rfl
    · rfl
    · rw [Bool.or_eq_true, any_eq_true]
      exact .inl ⟨root, hroot, hstarts⟩

/-- `has_context_read_denials`. -/
def hasContextReadDenials : Bool :=
  policy.kind = .restricted && policy.entries.any fun entry =>
    entry.access = deny && !(entry.path = .special .slashTmp && context.convention ≠ some .posix)

end FileSystemSandboxPolicy

/-! ## The validator -/

structure DenyReadValidator where
  requiredEntries : List FileSystemSandboxEntry
  matcher : Option PreparedReadDenyMatcher

inductive DenyReadViolation where
  | missingRequiredDeny
  | readablePath (path : PathUri)
  deriving DecidableEq, Repr

namespace DenyReadValidator

open FileSystemSandboxPolicy

def new (required : FileSystemSandboxPolicy) (context : FileSystemSandboxPolicyContext) :
    Except Str DenyReadValidator :=
  if required.hasContextReadDenials context then
    (required.prepareDenyReadMatcher context .returnError).map fun prepared =>
      ⟨required.entries, some prepared⟩
  else .ok ⟨required.entries, none⟩

/-- A readable concrete path that the matcher denies. -/
def violatingRoot (validator : DenyReadValidator) (context : FileSystemSandboxPolicyContext)
    (entry : FileSystemSandboxEntry) : Option PathUri :=
  match entry.path with
  | .path path =>
    if path.inferPathConvention ≠ context.convention then none
    else if validator.matcher.any (matchesPreparedReadDeny path context) then some path
    else none
  | _ => none

def validate (validator : DenyReadValidator) (selected : FileSystemSandboxPolicy)
    (context : FileSystemSandboxPolicyContext) : Except DenyReadViolation Unit :=
  let missingRequiredDeny := validator.requiredEntries.any fun entry =>
    !(selected.entries.any fun candidate => candidate.same entry)
  match (selected.entries.filter fun entry => entry.access.canRead).findSome?
      (validator.violatingRoot context) with
  | some path => .error (.readablePath path)
  | none => if missingRequiredDeny then .error .missingRequiredDeny else .ok ()

end DenyReadValidator

def shadowed : Str := "managed filesystem denial is shadowed by a selected profile grant".toList

def FileSystemSandboxPolicy.validateManagedDenyRead (selected required : FileSystemSandboxPolicy)
    (context : FileSystemSandboxPolicyContext) : Except Str Unit := do
  let validator ← DenyReadValidator.new required context
  (validator.validate selected context).mapError fun _ => shadowed

/-! ## What acceptance means -/

namespace FileSystemSandboxPolicy

variable {policy selected required : FileSystemSandboxPolicy}
  {context : FileSystemSandboxPolicyContext} {path root : PathUri}

omit [UrlHosts] in
theorem foldlM_addDenyMatcher_deniedRoots {convention : PathConvention}
    {behavior : InvalidDenyReadGlobBehavior} {patterns : List Str}
    {prepared prepared' : PreparedReadDenyMatcher}
    (h : patterns.foldlM (addDenyMatcher convention behavior) prepared = .ok prepared') :
    prepared'.deniedRoots = prepared.deniedRoots := by
  refine foldlM_invariant (I := fun _ next => next.deniedRoots = prepared.deniedRoots) rfl ?_ h
  intro _ current pattern next hcurrent _ hstep
  unfold addDenyMatcher at hstep
  cases hbuild : buildGlobMatcher pattern convention with
  | ok matcher =>
    simp only [hbuild] at hstep
    cases hstep
    exact hcurrent
  | error err =>
    simp only [hbuild] at hstep
    cases behavior with
    | failClosed =>
      cases hstep
      exact hcurrent
    | returnError => cases hstep

/-- Whatever becomes of the globs, the denied roots are kept. -/
theorem deniedRoots_of_prepareDenyReadMatcher {behavior : InvalidDenyReadGlobBehavior}
    {prepared : PreparedReadDenyMatcher}
    (h : policy.prepareDenyReadMatcher context behavior = .ok prepared) :
    prepared.deniedRoots = policy.deniedRoots context := by
  unfold prepareDenyReadMatcher at h
  cases hconvention : context.convention with
  | none =>
    simp only [hconvention] at h
    cases h
    rfl
  | some convention =>
    simp only [hconvention] at h
    cases hglobs : policy.denyReadGlobs context with
    | ok patterns =>
      simp only [hglobs] at h
      exact foldlM_addDenyMatcher_deniedRoots h
    | error err =>
      simp only [hglobs] at h
      cases behavior with
      | failClosed =>
        cases h
        rfl
      | returnError => cases h

/-- A root that a restricted policy denies, other than the root of the file system. -/
def Denies (policy : FileSystemSandboxPolicy) (context : FileSystemSandboxPolicyContext)
    (root : PathUri) : Prop :=
  policy.kind = .restricted ∧ (root, deny) ∈ policy.resolvedEntries context ∧
    isFileSystemRoot context root = false

omit [DenyGlobs] in
theorem Denies.mem_deniedRoots (h : policy.Denies context root) :
    root ∈ policy.deniedRoots context := by
  simp only [deniedRoots, mem_map, mem_filter]
  exact ⟨(root, deny), ⟨⟨h.2.1, by simp⟩, by simp [h.2.2]⟩, rfl⟩

omit [DenyGlobs] in
/-- On Windows `:slash_tmp` stands for no path, so a denied root counts as a denial. -/
theorem Denies.hasContextReadDenials (h : policy.Denies context root) :
    policy.hasContextReadDenials context = true := by
  obtain ⟨hkind, hmem, -⟩ := h
  obtain ⟨entry, hentry, hroot, haccess⟩ := mem_resolvedEntries.mp hmem
  simp only [FileSystemSandboxPolicy.hasContextReadDenials, hkind, decide_true, Bool.true_and,
    any_eq_true]
  refine ⟨entry, hentry, ?_⟩
  simp only [haccess, decide_true, Bool.true_and, Bool.not_eq_true', Bool.and_eq_false_iff,
    decide_eq_false_iff_not]
  by_contra hnot
  push Not at hnot
  obtain ⟨hpath, hconvention⟩ := hnot
  simp [roots, hpath, FileSystemPath.resolve, FileSystemSpecialPath.resolve,
    hconvention] at hroot

omit [DenyGlobs] in
/-- Equal entries resolve to equal roots. -/
theorem exists_same_root {entry candidate : FileSystemSandboxEntry}
    (hsame : candidate.same entry = true) (hroot : root ∈ entry.roots context) :
    ∃ other ∈ candidate.roots context, other.same root = true := by
  simp only [FileSystemSandboxEntry.same, Bool.and_eq_true] at hsame
  obtain ⟨⟨hpaths, -⟩, -⟩ := hsame
  obtain ⟨hresolved, hconvention⟩ := mem_filter.mp hroot
  cases hentry : entry.path with
  | globPattern pattern => simp [hentry, FileSystemPath.resolve] at hresolved
  | special value =>
    cases hcandidate : candidate.path with
    | path uri | globPattern pattern => simp [hentry, hcandidate, FileSystemPath.same] at hpaths
    | special value' =>
      have hvalue : value' = value := by
        simpa [hentry, hcandidate, FileSystemPath.same] using hpaths
      refine ⟨root, ?_, same_refl root⟩
      rw [roots, hcandidate, hvalue, ← hentry]
      exact hroot
  | path uri =>
    cases hcandidate : candidate.path with
    | globPattern pattern | special value =>
      simp [hentry, hcandidate, FileSystemPath.same] at hpaths
    | path other =>
      have hother : other.same uri = true := by
        simpa [hentry, hcandidate, FileSystemPath.same] using hpaths
      have huri : root = uri := by simpa [hentry, FileSystemPath.resolve] using hresolved
      subst huri
      refine ⟨other, mem_filter.mpr ⟨by simp [hcandidate, FileSystemPath.resolve], ?_⟩, hother⟩
      rw [inferPathConvention_of_same hother]
      exact hconvention

omit [DenyGlobs] in
/-- Equal entries resolve to roots at the same places, as far as these are text. -/
theorem exists_root_of_same {entry candidate : FileSystemSandboxEntry} {place : Location}
    (hsame : candidate.same entry = true)
    (htext : ∀ other ∈ candidate.roots context, other.decodesToText = true)
    (hroot : root ∈ entry.roots context) (hplace : root.location = some place) :
    ∃ other ∈ candidate.roots context, other.location = some place ∧ root.decodesToText = true := by
  obtain ⟨other, hmem, hother⟩ := exists_same_root hsame hroot
  have hrootText := decodesToText_of_same (same_symm hother) (htext other hmem)
  exact ⟨other, hmem, location_of_same hother hplace hrootText, hrootText⟩

end FileSystemSandboxPolicy

namespace DenyReadValidator

open FileSystemSandboxPolicy

variable {selected required : FileSystemSandboxPolicy} {context : FileSystemSandboxPolicyContext}
  {validator : DenyReadValidator} {path root : PathUri}

omit [UrlHosts] in
theorem validate_eq_ok (h : validator.validate selected context = .ok ()) :
    (∀ entry ∈ validator.requiredEntries, ∃ candidate ∈ selected.entries,
        candidate.same entry = true) ∧
      ∀ entry ∈ selected.entries, entry.access.canRead = true →
        validator.violatingRoot context entry = none := by
  unfold validate at h
  dsimp only at h
  cases hviolating : (selected.entries.filter fun entry => entry.access.canRead).findSome?
      (validator.violatingRoot context) with
  | some path =>
    rw [hviolating] at h
    cases h
  | none =>
    rw [hviolating] at h
    split_ifs at h with hmissing
    refine ⟨?_, ?_⟩
    · simpa using hmissing
    · intro entry hentry hread
      exact findSome?_eq_none_iff.mp hviolating entry (mem_filter.mpr ⟨hentry, hread⟩)

theorem new_eq_ok (hnew : new required context = .ok validator)
    (hdenies : required.Denies context root) :
    validator.requiredEntries = required.entries ∧
      ∃ prepared, validator.matcher = some prepared ∧ root ∈ prepared.deniedRoots := by
  unfold new at hnew
  rw [if_pos hdenies.hasContextReadDenials] at hnew
  obtain ⟨prepared, hprepared, rfl⟩ := map_eq_ok hnew
  refine ⟨rfl, prepared, rfl, ?_⟩
  rw [deniedRoots_of_prepareDenyReadMatcher hprepared]
  exact hdenies.mem_deniedRoots

end DenyReadValidator

namespace FileSystemSandboxPolicy

variable {selected required : FileSystemSandboxPolicy} {context : FileSystemSandboxPolicyContext}
  {path root : PathUri}

section

variable (selected required : FileSystemSandboxPolicy) (context : FileSystemSandboxPolicyContext)

/-- If the selected policy is accepted, then paths at or below a denied root are denied. -/
def KeepsDenials : Prop :=
  selected.validateManagedDenyRead required context = .ok () →
    ∀ root path, required.Denies context root → path.inferPathConvention = context.convention →
      path.startsWith root = true → selected.resolveAccess path context = deny

/-- No readable symbolic entry of the selected policy leads to a place strictly below a root that
the requirements deny. -/
def SymbolicGrantsOutside : Prop :=
  ∀ entry ∈ selected.entries, entry.access.canRead = true →
    ∀ value, entry.path = .special value → ∀ grant ∈ entry.roots context,
      ∀ root, required.Denies context root → grant.startsWith root = true →
        root.startsWith grant = true

end

theorem validateManagedDenyRead_eq_ok
    (h : selected.validateManagedDenyRead required context = .ok ()) :
    ∃ validator, DenyReadValidator.new required context = .ok validator ∧
      validator.validate selected context = .ok () := by
  obtain ⟨validator, hnew, hvalidate⟩ := bind_eq_ok h
  refine ⟨validator, hnew, ?_⟩
  cases hcase : validator.validate selected context with
  | error err =>
    rw [hcase] at hvalidate
    cases hvalidate
  | ok done => rfl

open DenyReadValidator

/-- A readable root of an accepted policy that lies at or below a denied root lies where that one
lies. -/
theorem startsWith_of_readable
    (haccepted : selected.validateManagedDenyRead required context = .ok ())
    (hsymbolic : selected.SymbolicGrantsOutside required context)
    (hdenies : required.Denies context root) {grant : PathUri} {access : FileSystemAccessMode}
    (hgrant : (grant, access) ∈ selected.resolvedEntries context) (hread : access ≠ deny)
    (hstarts : grant.startsWith root = true) : root.startsWith grant = true := by
  obtain ⟨validator, hnew, hvalidate⟩ := validateManagedDenyRead_eq_ok haccepted
  obtain ⟨-, prepared, hmatcher, hmem⟩ := new_eq_ok hnew hdenies
  obtain ⟨-, hnone⟩ := validate_eq_ok hvalidate
  obtain ⟨entry, hentry, hroots, rfl⟩ := mem_resolvedEntries.mp hgrant
  have hcanRead : entry.access.canRead = true := by simpa [canRead] using hread
  cases hpath : entry.path with
  | globPattern pattern => simp [roots, hpath, FileSystemPath.resolve] at hroots
  | special value => exact hsymbolic entry hentry hcanRead value hpath grant hroots root hdenies hstarts
  | path uri =>
    obtain ⟨hresolved, hconvention⟩ := mem_filter.mp hroots
    have huri : grant = uri := by simpa [hpath, FileSystemPath.resolve] using hresolved
    subst huri
    have hviolating := hnone entry hentry hcanRead
    simp [violatingRoot, hpath, of_decide_eq_true hconvention, hmatcher,
      matchesPreparedReadDeny_of_mem hmem hstarts] at hviolating

/-- An accepted restricted policy keeps the denials, if its symbolic grants stay outside and its
roots are text. -/
theorem keepsDenials_of_symbolicGrantsOutside (hkind : selected.kind = .restricted)
    (hsymbolic : selected.SymbolicGrantsOutside required context)
    (htext : ∀ resolved ∈ selected.resolvedEntries context, resolved.1.decodesToText = true) :
    KeepsDenials selected required context := by
  intro haccepted root path hdenies hconvention hstarts
  by_contra hgranted
  obtain ⟨hcomparable, -, grant, depth, hdecides⟩ :=
    (resolveAccess_eq_iff_of_ne_deny hkind hgranted).mp rfl
  -- the places of the path, of the denied root and of the root that grants the access
  have hlexical : path.lexicalDepth.isSome = true := by
    simp only [comparable, Bool.and_eq_true] at hcomparable
    exact hcomparable.1.2
  obtain ⟨pathDepth, hpathDepth⟩ := Option.isSome_iff_exists.mp hlexical
  obtain ⟨lower, hlower, -⟩ := lexicalDepth_eq_some_iff.mp hpathDepth
  obtain ⟨upper, hupper⟩ := exists_location_of_startsWith hlower hstarts
  obtain ⟨place, hplace, hdepth⟩ := lexicalDepth_eq_some_iff.mp hdecides.depth_eq
  -- the selected policy has the denial too
  obtain ⟨validator, hnew, hvalidate⟩ := validateManagedDenyRead_eq_ok haccepted
  obtain ⟨hrequired, -⟩ := new_eq_ok hnew hdenies
  obtain ⟨hkept, -⟩ := validate_eq_ok hvalidate
  obtain ⟨entry, hentry, hroot, haccess⟩ := mem_resolvedEntries.mp hdenies.2.1
  obtain ⟨candidate, hcandidate, hsame⟩ := hkept entry (hrequired ▸ hentry)
  have hcandidateText : ∀ other ∈ candidate.roots context, other.decodesToText = true := by
    intro other hother
    exact htext (other, candidate.access) (mem_resolvedEntries.mpr ⟨candidate, hcandidate, hother, rfl⟩)
  obtain ⟨other, hother, hotherPlace, hrootText⟩ :=
    exists_root_of_same hsame hcandidateText hroot hupper
  have hcandidateAccess : candidate.access = deny := by
    simp only [FileSystemSandboxEntry.same, Bool.and_eq_true, decide_eq_true_eq] at hsame
    rw [hsame.1.2, haccess]
  have hdeny : (other, deny) ∈ selected.resolvedEntries context :=
    mem_resolvedEntries.mpr ⟨candidate, hcandidate, hother, hcandidateAccess⟩
  have hbelow : lower.Below upper := (startsWith_iff_below hlower hupper hrootText).mp hstarts
  have hcovers : path.startsWith other = true :=
    (startsWith_iff_below hlower hotherPlace (hcandidateText other hother)).mpr hbelow
  have hotherDepth : other.lexicalDepth = some upper.depth :=
    lexicalDepth_eq_some_iff.mpr ⟨upper, hotherPlace, rfl⟩
  rcases hdecides.max other deny upper.depth hdeny hcovers hotherDepth with hdeeper | ⟨-, hle⟩
  · -- a deeper root is below the denied one, which only a grant at the same place could be
    have hgrantText := htext (grant, _) hdecides.mem
    have hgrantBelow : lower.Below place :=
      (startsWith_iff_below hlower hplace hgrantText).mp hdecides.covers
    have hplaces : place.Below upper := hgrantBelow.of_depth_le hbelow (by omega)
    have hup := startsWith_of_readable haccepted hsymbolic hdenies hdecides.mem hgranted
      ((startsWith_iff_below hplace hupper hrootText).mpr hplaces)
    have hdepths := ((startsWith_iff_below hupper hplace hgrantText).mp hup).depth_le
    omega
  · exact hgranted (le_antisymm (le_deny _) hle)

end FileSystemSandboxPolicy

end

namespace FileSystemSandboxPolicy

open PathUri

/-- No globs: every pattern compiles, and none matches. -/
@[reducible]
def noGlobs : DenyGlobs := ⟨Unit, fun _ _ => .ok (), fun _ _ => false, fun _ => [], fun _ _ => .ok ()⟩

/-- Requirements that deny `/secret` stay in force next to a grant for the project. -/
theorem keepsDenials_secret :
    let _ : UrlHosts := ⟨some⟩
    let _ : DenyGlobs := noGlobs
    let denial : FileSystemSandboxEntry := ⟨.path (ofSegments ["secret"]), deny, none⟩
    let grant : FileSystemSandboxEntry := ⟨.special (.projectRoots none), write, none⟩
    let context : FileSystemSandboxPolicyContext :=
      ⟨ofSegments ["work"], [ofSegments ["work"]], none, none⟩
    (restricted [denial, grant]).validateManagedDenyRead (restricted [denial]) context = .ok () ∧
      (restricted [denial, grant]).resolveAccess (ofSegments ["work", "key"]) context = write ∧
      (restricted [denial, grant]).resolveAccess (ofSegments ["secret", "key"]) context = deny := by
  intro _ _ denial grant context
  have haccepted : (restricted [denial, grant]).validateManagedDenyRead (restricted [denial]) context
      = .ok () := by decide
  have hdenies : (restricted [denial]).Denies context (ofSegments ["secret"]) := by
    refine ⟨rfl, ?_, ?_⟩ <;> decide
  have hsymbolic : (restricted [denial, grant]).SymbolicGrantsOutside (restricted [denial])
      context := by
    intro entry hentry hread value hvalue place hplace root hroot hstarts
    have hroots : root = ofSegments ["secret"] := by
      have hmem := hroot.2.1
      have hresolved : (restricted [denial]).resolvedEntries context =
          [(ofSegments ["secret"], deny)] := by decide
      simpa [hresolved] using hmem
    have houtside : ∀ entry ∈ [denial, grant], entry.access.canRead = true →
        ∀ place ∈ entry.roots context, place.startsWith (ofSegments ["secret"]) = false := by decide
    rw [hroots, houtside entry hentry hread place hplace] at hstarts
    cases hstarts
  refine ⟨haccepted, by decide, ?_⟩
  exact keepsDenials_of_symbolicGrantsOutside rfl hsymbolic (by decide) haccepted
    (ofSegments ["secret"]) _ hdenies (by decide) (by decide)

/-- The denials are lost where the project lies below a denied root, where the selected policy is
not restricted, and where a Windows name that is no text is spelled in two ways. -/
theorem not_keepsDenials :
    let _ : UrlHosts := ⟨some⟩
    let _ : DenyGlobs := noGlobs
    let denial : FileSystemSandboxEntry := ⟨.path (ofSegments ["secret"]), deny, none⟩
    let grant : FileSystemSandboxEntry := ⟨.special (.projectRoots none), write, none⟩
    let denied : FileSystemSandboxEntry := ⟨.path (ofSegments ["C:", "%FF%61"]), deny, none⟩
    let respelled : FileSystemSandboxEntry := ⟨.path (ofSegments ["C:", "%FFa"]), deny, none⟩
    let drive : FileSystemSandboxEntry := ⟨.path (ofSegments ["C:"]), write, none⟩
    let project := ofSegments ["secret", "project"]
    let context : FileSystemSandboxPolicyContext := ⟨project, [project], none, none⟩
    let windows : FileSystemSandboxPolicyContext := ⟨ofSegments ["C:"], [], none, none⟩
    ¬ KeepsDenials (restricted [denial, grant]) (restricted [denial]) context ∧
      ¬ KeepsDenials ⟨.unrestricted, [denial]⟩ (restricted [denial]) context ∧
      ¬ KeepsDenials (restricted [respelled, drive]) (restricted [denied]) windows := by
  intro _ _ denial grant denied respelled drive project context windows
  have hdenies : (restricted [denial]).Denies context (ofSegments ["secret"]) := by
    refine ⟨rfl, ?_, ?_⟩ <;> decide
  have hdeniesWindows : (restricted [denied]).Denies windows (ofSegments ["C:", "%FF%61"]) := by
    refine ⟨rfl, ?_, ?_⟩ <;> decide
  refine ⟨?_, ?_, ?_⟩
  · intro hkeeps
    have hdeny := hkeeps (by decide) _ project hdenies (by decide) (by decide)
    revert hdeny
    decide
  · intro hkeeps
    have hdeny := hkeeps (by decide) _ project hdenies (by decide) (by decide)
    revert hdeny
    decide
  · intro hkeeps
    have hdeny := hkeeps (by decide) _ (ofSegments ["C:", "%FF%61", "key"]) hdeniesWindows
      (by decide) (by decide)
    revert hdeny
    decide

end FileSystemSandboxPolicy

end Codex
