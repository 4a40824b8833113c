import Codex.NetworkProxy.Constraints

/-!
# A managed allowlist bounds the configured one

The constraints compare domains by how they read them (`reading`), the matcher compiles them
(`compiledDomain`).  Where an entry is read as what it is compiled to, an admitted pattern
matches no host that the managed patterns do not match, with one exception: a pattern whose
first label can be empty, such as `.example.com`, is taken for a subdomain and is none.

`allowlist_subset` states these conditions, and `unread_domains_compare_equal` what happens where
the constraints cannot read a domain.  `covers_of_allows` is the comparison of two patterns.
-/

namespace Codex.NetworkProxy

open Text Bytes DomainPattern List

/-- The domain a pattern is compiled to, behind its wildcard. -/
def compiledDomain (pattern : Str) : Str := normalizeHost (splitWildcard (trim pattern)).2

/-- The domain the constraints read in a pattern. -/
def reading [UrlHosts] (pattern : Str) : Str :=
  normalizeDomain (parseDomainForConstraints (splitWildcard (trim pattern)).2)

/-- Something must stand in front of the first dot: neither nothing nor stars only. -/
def firstLabelFixed (domain : Str) : Bool := (domain.dropWhile (· = '*')).head? ≠ some '.'

/-- The kind of a pattern is its wildcard. -/
inductive Kind where
  | exact
  | subdomains
  | apex
  deriving DecidableEq

def patternKind (pattern : Str) : Kind :=
  if (splitWildcard (trim pattern)).1 = apexWildcard then .apex
  else if (splitWildcard (trim pattern)).1 = subdomainWildcard then .subdomains
  else .exact

/-- A pattern is taken apart the same way by the matcher and by the constraints. -/
theorem patternKind_cases (pattern : Str) :
    (patternKind pattern = .apex ∧
      trim pattern = apexWildcard ++ (splitWildcard (trim pattern)).2) ∨
    (patternKind pattern = .subdomains ∧
      trim pattern = subdomainWildcard ++ (splitWildcard (trim pattern)).2) ∨
    (patternKind pattern = .exact ∧ splitWildcard (trim pattern) = ([], trim pattern)) := by
  have hne : subdomainWildcard ≠ apexWildcard := by decide
  have hnil : ([] : Str) ≠ apexWildcard ∧ ([] : Str) ≠ subdomainWildcard := by decide
  obtain ⟨domain, htrim, hsplit⟩ | ⟨domain, htrim, hsplit⟩ | ⟨hsplit, -, -⟩ :=
    splitWildcard_cases (trim pattern)
  · refine .inl ⟨by simp [patternKind, hsplit], ?_⟩
    rw [hsplit]
    exact htrim
  · refine .inr (.inl ⟨by simp [patternKind, hsplit, hne], ?_⟩)
    rw [hsplit]
    exact htrim
  · exact .inr (.inr ⟨by simp [patternKind, hsplit, hnil.1, hnil.2], hsplit⟩)

/-! ## How the constraints read a pattern -/

section Reading

variable [UrlHosts]

theorem parseForConstraints_eq (pattern : Str) :
    parseForConstraints pattern =
      match patternKind pattern with
      | .exact => .exact (parseDomainForConstraints (splitWildcard (trim pattern)).2)
      | .subdomains => .subdomainsOnly (parseDomainForConstraints (splitWildcard (trim pattern)).2)
      | .apex =>
        .apexAndSubdomains (parseDomainForConstraints (splitWildcard (trim pattern)).2) := by
  unfold parseForConstraints
  obtain ⟨hkind, htrim⟩ | ⟨hkind, htrim⟩ | ⟨hkind, hsplit⟩ := patternKind_cases pattern
  · rw [hkind]
    generalize (splitWildcard (trim pattern)).2 = domain at htrim ⊢
    have hstrip : stripPrefix apexWildcard (apexWildcard ++ domain) = some domain :=
      stripPrefix_eq_some_iff.mpr rfl
    have hne : apexWildcard ++ domain ≠ [] := by simp [apexWildcard]
    simp [htrim, hstrip, hne]
  · rw [hkind]
    generalize (splitWildcard (trim pattern)).2 = domain at htrim ⊢
    have hstrip : stripPrefix subdomainWildcard (subdomainWildcard ++ domain) = some domain :=
      stripPrefix_eq_some_iff.mpr rfl
    have hapex : stripPrefix apexWildcard (subdomainWildcard ++ domain) = none := by
      simp [apexWildcard, subdomainWildcard, stripPrefix]
    have hne : subdomainWildcard ++ domain ≠ [] := by simp [subdomainWildcard]
    simp [htrim, hstrip, hapex, hne]
  · obtain ⟨domain, -, hsplit'⟩ | ⟨domain, -, hsplit'⟩ | ⟨-, hapex, hsub⟩ :=
      splitWildcard_cases (trim pattern)
    · simp [hsplit, apexWildcard] at hsplit'
    · simp [hsplit, subdomainWildcard] at hsplit'
    · simp only [hkind, hsplit, hapex, hsub]
      split_ifs with hempty
      · rw [hempty]
        rfl
      · rfl

/-- What an admitted pattern's reading has to do with the managed one's. -/
theorem allows_iff {managed candidate : Str} :
    (parseForConstraints managed).allows (.parseForConstraints candidate) = true ↔
      match patternKind managed, patternKind candidate with
      | .exact, .exact => reading candidate = reading managed
      | .exact, _ => False
      | .subdomains, .subdomains | .apex, _ =>
        reading candidate = reading managed ∨ '.' :: reading managed <:+ reading candidate
      | .subdomains, _ =>
        reading candidate ≠ reading managed ∧ '.' :: reading managed <:+ reading candidate := by
  rw [parseForConstraints_eq, parseForConstraints_eq]
  cases patternKind managed <;> cases patternKind candidate <;>
    simp [allows, domainEq, isSubdomainOrEqual, isStrictSubdomain, reading]

/-- A reading never ends in a dot. -/
theorem not_dot_suffix_reading (pattern : Str) : ¬ ['.'] <:+ reading pattern := by
  rintro ⟨front, hfront⟩
  obtain ⟨body, last, hbody, -, hlast⟩ := map_eq_append_iff.mp hfront.symm
  obtain ⟨c, tail, rfl, hc, htail⟩ := map_eq_cons_iff.mp hlast
  cases map_eq_nil_iff.mp htail
  have hne : trimEndDots (parseDomainForConstraints (splitWildcard (trim pattern)).2) ≠ [] := by
    simp [hbody]
  have hnot := rdropWhile_last_not _ _ hne
  simp only [trimEndDots] at hbody
  simp [hbody, eq_of_toLower_eq hc (by decide)] at hnot

end Reading

/-! ## What a pattern is compiled to -/

section Compiled

variable {pattern : Str}

theorem isWhitespace_of_mem_compiledDomain (h : Supported pattern) :
    ∀ c ∈ compiledDomain pattern, isWhitespace c = false := by
  refine isWhitespace_of_mem_normalizeHost fun c hc => h.whitespace c ?_
  obtain ⟨-, htrim⟩ | ⟨-, htrim⟩ | ⟨-, hsplit⟩ := patternKind_cases pattern
  · rw [htrim]
    exact mem_append_right _ hc
  · rw [htrim]
    exact mem_append_right _ hc
  · rwa [hsplit] at hc

theorem candidates_eq (h : Supported pattern) :
    candidates pattern =
      match patternKind pattern with
      | .exact => expandDomainPattern (compiledDomain pattern)
      | .subdomains => ["?*.".toList ++ compiledDomain pattern]
      | .apex => [compiledDomain pattern, "?*.".toList ++ compiledDomain pattern] := by
  obtain ⟨hkind, htrim⟩ | ⟨hkind, htrim⟩ | ⟨hkind, hsplit⟩ := patternKind_cases pattern
  · rw [hkind, h.candidates_apex htrim]
    rfl
  · rw [hkind, h.candidates_subdomain htrim]
    rfl
  · rw [hkind, candidates_plain hsplit, compiledDomain, hsplit]

theorem not_forall_star_of_firstLabelFixed {front domain : Str}
    (hfixed : firstLabelFixed (front ++ '.' :: domain) = true) : ¬ ∀ c ∈ front, c = '*' := by
  intro hstars
  have hdrop : (front ++ '.' :: domain).dropWhile (· = '*') = '.' :: domain := by
    rw [dropWhile_append_of_pos fun c hc => by simp [hstars c hc]]
    simp
  simp [firstLabelFixed, hdrop] at hfixed

/-- What a subdomain pattern of a deeper domain matches, that of the domain matches. -/
theorem matches_subdomain_of_suffix {child parent : Str} {bytes : List ℕ}
    (hsuffix : child = parent ∨ '.' :: parent <:+ child)
    (h : Glob.Matches isStarByte acceptByte (asBytes ("?*.".toList ++ child)) bytes) :
    Glob.Matches isStarByte acceptByte (asBytes ("?*.".toList ++ parent)) bytes := by
  rcases hsuffix with rfl | ⟨front, rfl⟩
  · exact h
  · rw [matches_subdomain_iff] at h ⊢
    obtain ⟨outer, back, rfl, hne, hback⟩ := h
    rw [asBytes_append, Glob.matches_append_iff] at hback
    obtain ⟨inner, _, rfl, -, hrest⟩ := hback
    obtain ⟨back, rfl, hback⟩ := matches_dot_iff.mp hrest
    exact ⟨outer ++ 46 :: inner, back, by simp, by simp, hback⟩

/-- A domain with a fixed first label below another is a subdomain of it. -/
theorem matches_subdomain_of_fixed {child parent : Str} {bytes : List ℕ}
    (hsuffix : '.' :: parent <:+ child) (hfixed : firstLabelFixed child = true)
    (h : Glob.Matches isStarByte acceptByte (asBytes child) bytes) :
    Glob.Matches isStarByte acceptByte (asBytes ("?*.".toList ++ parent)) bytes := by
  obtain ⟨front, rfl⟩ := hsuffix
  rw [asBytes_append, Glob.matches_append_iff] at h
  obtain ⟨inner, _, rfl, hinner, hrest⟩ := h
  obtain ⟨back, rfl, hback⟩ := matches_dot_iff.mp hrest
  refine matches_subdomain_iff.mpr ⟨inner, back, rfl, ?_, hback⟩
  rintro rfl
  exact not_forall_star_of_firstLabelFixed hfixed (eq_star_of_matches_nil hinner)

theorem compiledDomain_ne_nil (h : Supported pattern) : compiledDomain pattern ≠ [] := by
  obtain ⟨-, htrim⟩ | ⟨-, htrim⟩ | ⟨hkind, -⟩ := patternKind_cases pattern
  · exact h.normalizeHost_ne_nil htrim (.inl rfl)
  · exact h.normalizeHost_ne_nil htrim (.inr rfl)
  · intro hnil
    have hcandidates : candidates pattern = [[]] := by
      rw [candidates_eq h, hkind, hnil]
      decide
    exact h.nonempty [] (by simp [hcandidates]) rfl

end Compiled

/-! ## An admitted pattern matches no more than the managed one -/

section Subset

variable [UrlHosts]

/-- The constraints read the pattern as what it is compiled to. -/
def FaithfullyRead (pattern : Str) : Prop := reading pattern = compiledDomain pattern

instance (pattern : Str) : Decidable (FaithfullyRead pattern) :=
  inferInstanceAs (Decidable (reading pattern = compiledDomain pattern))

/-- Where something must stand in front of the first dot of the domain, or does anyway. -/
def HasFirstLabel (pattern : Str) : Prop :=
  patternKind pattern = .subdomains ∨ firstLabelFixed (compiledDomain pattern) = true

instance (pattern : Str) : Decidable (HasFirstLabel pattern) :=
  inferInstanceAs (Decidable (_ ∨ _))

variable {managed candidate : Str}

omit [UrlHosts] in
theorem mem_candidates_cases (hcandidate : Supported candidate) (hlabel : HasFirstLabel candidate)
    {pattern : Str} (hpattern : pattern ∈ candidates candidate) :
    (pattern = compiledDomain candidate ∧ patternKind candidate ≠ .subdomains ∧
      firstLabelFixed (compiledDomain candidate) = true) ∨
    (pattern = "?*.".toList ++ compiledDomain candidate ∧ patternKind candidate ≠ .exact) := by
  rw [candidates_eq hcandidate] at hpattern
  cases hkind : patternKind candidate with
  | exact =>
    have hfixed := hlabel.resolve_left (by simp [hkind])
    -- a domain whose first label is fixed has no wildcard in front
    have hsplit : splitWildcard (compiledDomain candidate) = ([], compiledDomain candidate) := by
      obtain ⟨rest, heq, -⟩ | ⟨rest, heq, -⟩ | ⟨hsplit, -, -⟩ :=
        splitWildcard_cases (compiledDomain candidate)
      · simp [heq, firstLabelFixed, apexWildcard] at hfixed
      · simp [heq, firstLabelFixed, subdomainWildcard] at hfixed
      · exact hsplit
    simp only [hkind, expandDomainPattern, hsplit,
      trim_eq_self (isWhitespace_of_mem_compiledDomain hcandidate)] at hpattern
    exact .inl ⟨mem_singleton.mp hpattern, by simp, hfixed⟩
  | subdomains =>
    rw [hkind] at hpattern
    exact .inr ⟨mem_singleton.mp hpattern, by simp⟩
  | apex =>
    have hfixed := hlabel.resolve_left (by simp [hkind])
    simp only [hkind, mem_cons, not_mem_nil, or_false] at hpattern
    rcases hpattern with rfl | rfl
    · exact .inl ⟨rfl, by simp, hfixed⟩
    · exact .inr ⟨rfl, by simp⟩

/-- The kinds and the readings bound what the compiled patterns match. -/
theorem covers_of_allows (hmanaged : Supported managed) (hcandidate : Supported candidate)
    (hreadManaged : FaithfullyRead managed) (hreadCandidate : FaithfullyRead candidate)
    (hlabel : HasFirstLabel candidate)
    (hallows : (parseForConstraints managed).allows (.parseForConstraints candidate) = true)
    {host pattern : Str} (hpattern : pattern ∈ candidates candidate) (hcovers : Covers pattern host) :
    ∃ pattern ∈ candidates managed, Covers pattern host := by
  rw [allows_iff, hreadManaged, hreadCandidate] at hallows
  have hbelow : compiledDomain candidate = compiledDomain managed ∨
      '.' :: compiledDomain managed <:+ compiledDomain candidate := by
    cases hmanagedKind : patternKind managed <;> cases hkind : patternKind candidate <;>
      simp only [hmanagedKind, hkind] at hallows <;>
      first | exact hallows | exact .inl hallows | exact .inr hallows.2
  cases hmanagedKind : patternKind managed with
  | exact =>
    -- only an exact host of the same reading is admitted
    cases hkind : patternKind candidate with
    | exact =>
      simp only [hmanagedKind, hkind] at hallows
      rw [candidates_eq hcandidate, hkind, hallows] at hpattern
      rw [candidates_eq hmanaged, hmanagedKind]
      exact ⟨pattern, hpattern, hcovers⟩
    | subdomains | apex => simp [hmanagedKind, hkind] at hallows
  | subdomains =>
    rw [candidates_eq hmanaged, hmanagedKind]
    refine ⟨_, mem_singleton_self _, ?_⟩
    obtain ⟨rfl, hkind, hfixed⟩ | ⟨rfl, -⟩ := mem_candidates_cases hcandidate hlabel hpattern
    · have hstrict : '.' :: compiledDomain managed <:+ compiledDomain candidate := by
        cases hcandidateKind : patternKind candidate with
        | subdomains => exact absurd hcandidateKind hkind
        | exact | apex =>
          simp only [hmanagedKind, hcandidateKind] at hallows
          exact hallows.2
      exact matches_subdomain_of_fixed hstrict hfixed hcovers
    · exact matches_subdomain_of_suffix hbelow hcovers
  | apex =>
    rw [candidates_eq hmanaged, hmanagedKind]
    obtain ⟨rfl, -, hfixed⟩ | ⟨rfl, -⟩ := mem_candidates_cases hcandidate hlabel hpattern
    · rcases hbelow with heq | hsuffix
      · exact ⟨compiledDomain managed, by simp, heq ▸ hcovers⟩
      · exact ⟨_, mem_cons_of_mem _ (mem_singleton_self _),
          matches_subdomain_of_fixed hsuffix hfixed hcovers⟩
    · exact ⟨_, mem_cons_of_mem _ (mem_singleton_self _),
        matches_subdomain_of_suffix hbelow hcovers⟩

/-! ## Accepted configurations -/

variable {config : NetworkProxyConfig} {constraints : NetworkProxyConstraints}
  {executorOs : Platform} {mitmHooks mitmState : Except Str Unit} {state : ConfigState}
  {managedDomains : List Str}

/-- A configuration that the constraints and the compiler accept allows no host that the
managed allowlist does not, where every allowed domain is listed by the managed allowlist or is
read as what it is compiled to and has a first label, and every managed domain is read as what
it is compiled to or not at all. -/
theorem allowlist_subset (hmanaged : constraints.allowedDomains = some managedDomains)
    (hexpansion : constraints.allowlistExpansionEnabled = none)
    (hvalid : validatePolicyAgainstConstraints config constraints mitmHooks = .ok ())
    (hstate : buildConfigState config constraints executorOs mitmHooks mitmState = .ok state)
    {managedSet : DomainPatternSet} (hset : compileAllowlist managedDomains = .ok managedSet)
    (hmanagedRead : ∀ managed ∈ managedDomains, FaithfullyRead managed ∨ reading managed = [])
    (hread : ∀ entry ∈ config.allowedDomains.getD [],
      (∃ managed ∈ managedDomains, normalizePattern entry = normalizePattern managed) ∨
        (FaithfullyRead entry ∧ HasFirstLabel entry))
    {host : Str} (hmatch : state.allowSet.isMatch host = true) :
    managedSet.isMatch host = true := by
  -- with a managed allowlist, brokerage adds no allowed domain
  have hsame : state.config.allowedDomains = config.allowedDomains := by
    iterate 3 obtain ⟨-, -, hstate⟩ := bind_eq_ok hstate
    obtain ⟨compiled, hcompiled, hstate⟩ := bind_eq_ok hstate
    iterate 2 obtain ⟨-, -, hstate⟩ := bind_eq_ok hstate
    cases hstate
    have hconfig : state.config = (withBrokerage config constraints).1 := by
      unfold compileState at hcompiled
      split at hcompiled
      · cases hcompiled
      · split at hcompiled
        · cases hcompiled
        · cases hcompiled
          rfl
    rw [hconfig]
    simp only [withBrokerage, hmanaged, Option.isNone_some, Bool.and_false, Bool.false_eq_true,
      if_false]
    split_ifs <;> rfl
  have hallow := state.allowSet_eq
  rw [hsame] at hallow
  obtain ⟨entry, hentry, pattern, hpattern, hcovers⟩ := (isMatch_new_iff hallow).mp hmatch
  refine (isMatch_new_iff hset).mpr ?_
  rcases hread entry hentry with ⟨managed, hmem, heq⟩ | ⟨hfaithful, hlabel⟩
  · refine ⟨managed, hmem, pattern, ?_, hcovers⟩
    rwa [candidates, ← heq]
  · -- the checks before that of the domains
    iterate 8 obtain ⟨-, -, hvalid⟩ := bind_eq_ok hvalid
    obtain ⟨⟨⟩, hdomains, -⟩ := bind_eq_ok hvalid
    simp only [checkManagedAllowedDomains, hmanaged] at hdomains
    obtain ⟨-, -, hdomains⟩ := bind_eq_ok hdomains
    simp only [checkAllowedDomains, hexpansion] at hdomains
    split_ifs at hdomains with hinvalid
    obtain ⟨managed, hmem, hallows⟩ : ∃ managed ∈ managedDomains,
        (parseForConstraints managed).allows (.parseForConstraints entry) = true := by
      simpa using filter_eq_nil_iff.mp hinvalid entry hentry
    have hsupported := supported_of_new hallow hentry
    rcases hmanagedRead managed hmem with hmanagedFaithful | hunread
    · obtain ⟨pattern', hpattern', hcovers'⟩ := covers_of_allows (supported_of_new hset hmem)
        hsupported hmanagedFaithful hfaithful hlabel hallows hpattern hcovers
      exact ⟨managed, hmem, pattern', hpattern', hcovers'⟩
    · -- a domain that is read faithfully is below none the constraints could not read
      have hne : reading entry ≠ [] := hfaithful ▸ compiledDomain_ne_nil hsupported
      have hdot := not_dot_suffix_reading entry
      rw [allows_iff, hunread] at hallows
      cases hkind : patternKind managed <;> cases hother : patternKind entry <;>
        simp [hkind, hother, hne, hdot] at hallows

end Subset

/-! ## A domain nobody listed

A host parser that rejects a colon outside of brackets, as the one of the `url` crate does,
and no other host. -/

@[reducible] def rejectColons : UrlHosts := ⟨fun host => if ':' ∈ host then none else some host⟩

def allowing (patterns : List String) : NetworkProxyConfig :=
  { NetworkProxyConfig.default with
    domains := some ⟨patterns.map fun pattern => ⟨pattern.toList, .allow⟩⟩ }

def managing (patterns : List String) : NetworkProxyConstraints :=
  { NetworkProxyConstraints.default with allowedDomains := some (patterns.map String.toList) }

theorem allowlist_subset_example :
    let _ : UrlHosts := rejectColons
    ∃ state managedSet,
      buildConfigState (allowing ["api.example.com"]) (managing ["*.example.com"]) .linux (.ok ())
        (.ok ()) = .ok state ∧
      compileAllowlist ["*.example.com".toList] = .ok managedSet ∧
      state.allowSet.isMatch "api.example.com".toList = true ∧
      managedSet.isMatch "api.example.com".toList = true := by
  intro _
  obtain ⟨state, hstate, hmatch⟩ := map_eq_ok (show (buildConfigState (allowing ["api.example.com"])
    (managing ["*.example.com"]) .linux (.ok ()) (.ok ())).map
      (fun state => state.allowSet.isMatch "api.example.com".toList) = .ok true by decide)
  obtain ⟨managedSet, hset, -⟩ := map_eq_ok
    (show (compileAllowlist ["*.example.com".toList]).map (fun _ => true) = .ok true by decide)
  refine ⟨state, managedSet, hstate, hset, hmatch, ?_⟩
  have hmanaged : (managing ["*.example.com"]).allowedDomains = some ["*.example.com".toList] := rfl
  exact allowlist_subset hmanaged rfl (by decide) hstate hset (by decide) (by decide) hmatch

/-- Two IPv6 literals, neither of which the constraints can read, compare equal: the
configuration is accepted and allows a host that the managed allowlist does not list. -/
theorem unread_domains_compare_equal :
    let _ : UrlHosts := rejectColons
    let config := allowing ["[2001:db8::1]"]
    let constraints := managing ["[::1]"]
    validatePolicyAgainstConstraints config constraints (.ok ()) = .ok () ∧
      (buildConfigState config constraints .linux (.ok ()) (.ok ())).map
        (fun state => state.allowSet.isMatch "2001:db8::1".toList) = .ok true ∧
      (compileAllowlist ["[::1]".toList]).map
        (fun set => set.isMatch "2001:db8::1".toList) = .ok false := by
  decide

end Codex.NetworkProxy
