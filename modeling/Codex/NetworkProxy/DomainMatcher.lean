import Codex.Lib.Bytes
import Codex.Lib.Except
import Codex.Lib.Glob
import Codex.NetworkProxy.IpAddr
import Mathlib.Computability.Language

/-!
# Domain patterns

A domain pattern is written `example.com`, `*.example.com`, `**.example.com`, or with
wildcards `*` and `?` inside the labels.  A set of patterns is checked, normalised and
compiled to wildcard patterns over bytes; a leading `*.` or `**.` is expanded before.

`isMatch_new_iff` says what a compiled set matches, in terms of the patterns it was
compiled from, and `Supported` what the compiler has checked about each of them.

The loop that matches a host returns and decides the language of the pattern
(`hostMatches_language`); it is the general scan of `Lib.Glob` at bytes.
-/

namespace Codex.NetworkProxy

open Text Bytes Glob List

/-! ## Texts -/

def toLowercase (s : Str) : Str := s.map Char.toLower

def trimEndDots (s : Str) : Str := s.rdropWhile (· = '.')

/-- The text before and after the first occurrence of the delimiter. -/
def splitOnce (delimiter : Str) : Str → Option (Str × Str)
  | [] => (stripPrefix delimiter []).map fun rest => ([], rest)
  | c :: s =>
    match stripPrefix delimiter (c :: s) with
    | some rest => some ([], rest)
    | none => (splitOnce delimiter s).map fun (before, after) => (c :: before, after)

/-! ## Hosts -/

def scopedIpLiteral (host delimiter : Str) : Option Str :=
  match splitOnce delimiter host with
  | some (ip, scope) => if (parseIpAddr ip).isSome then some (ip ++ '%' :: scope) else none
  | none => none

def normalizeIpLiteral (host : Str) : Option Str :=
  if (parseIpAddr host).isSome then some host
  else ["%25".toList, "%".toList].findSome? (scopedIpLiteral host)

def normalizeDnsHostOrIpLiteral (host : Str) : Str :=
  let host := trimEndDots (toLowercase host)
  (normalizeIpLiteral host).getD host

/-- What stands between a leading bracket and the first closing one. -/
def bracketed : Str → Option Str
  | '[' :: s => (splitOnce [']'] s).map Prod.fst
  | _ => none

def normalizeHost (host : Str) : Str :=
  let host := trim host
  match bracketed host with
  | some inner => normalizeDnsHostOrIpLiteral inner
  | none =>
    -- exactly one colon starts a port; more belong to an IPv6 literal
    if host.count ':' = 1 then normalizeDnsHostOrIpLiteral (host.takeWhile (· ≠ ':'))
    else normalizeDnsHostOrIpLiteral host

def unscopedIpLiteral (host : Str) : Option Str :=
  match splitOnce ['%'] host with
  | some (ip, _) => if (parseIpAddr ip).isSome then some ip else none
  | none => none

/-! ## Patterns -/

def apexWildcard : Str := "**.".toList

def subdomainWildcard : Str := "*.".toList

variable (pattern : Str)

/-- The wildcard in front of a pattern and the rest of it. -/
def splitWildcard : Str × Str :=
  match stripPrefix apexWildcard pattern with
  | some domain => (apexWildcard, domain)
  | none =>
    match stripPrefix subdomainWildcard pattern with
    | some domain => (subdomainWildcard, domain)
    | none => ([], pattern)

def normalizePattern : Str :=
  let pattern := trim pattern
  if pattern = ['*'] then ['*']
  else (splitWildcard pattern).1 ++ normalizeHost (splitWildcard pattern).2

/-- `*.` stands for the subdomains, `**.` for these and the domain itself. -/
def expandDomainPattern : List Str :=
  let pattern := trim pattern
  let (wildcard, domain) := splitWildcard pattern
  if wildcard = [] then [pattern]
  else
    let domain := trim domain
    if domain = [] then [[]]
    else if wildcard = apexWildcard then [domain, "?*.".toList ++ domain]
    else ["?*.".toList ++ domain]

/-- The wildcard patterns that a domain pattern is compiled to. -/
def candidates : List Str := expandDomainPattern (normalizePattern pattern)

def isGlobalWildcardDomainPattern : Bool := (candidates pattern).any (· = ['*'])

/-! ## Compilation -/

inductive GlobalWildcard where
  | allow
  | reject
  deriving DecidableEq, Repr

/-- The compiled patterns, as UTF-8 bytes. -/
structure DomainPatternSet where
  patterns : List (List ℕ)
  deriving DecidableEq, Repr

def isBracket (c : Char) : Bool := c = '[' || c = ']'

def supportedSyntax (raw : Str) : Bool :=
  raw.all fun c => c ≠ '\x7b' && c ≠ '\x7d' && c ≠ '\\' && c ≠ '/' && !isWhitespace c

/-- Brackets stand around an IPv6 literal or a star, and only dots or a port follow. -/
def supportedBrackets (host : Str) : Bool :=
  match (stripPrefix ['['] host).bind (splitOnce [']']) with
  | some (ip, suffix) =>
    let normalized := normalizeDnsHostOrIpLiteral ip
    let unscoped := normalized.takeWhile (· ≠ '%')
    !ip.any isBracket && (normalized = ['*'] || (parseIpv6Addr unscoped).isSome) &&
      !suffix.any isBracket && (suffix.all (· = '.') || suffix.head? = some ':')
  | none => false

def addCandidate (compiled : List Str) (candidate : Str) : Except Str (List Str) :=
  if candidate ∈ compiled then .ok compiled
  else if candidate = [] then .error "domain pattern is empty".toList
  else .ok (compiled ++ [candidate])

/-- Checks a pattern and adds what it is compiled to. -/
def addPattern (globalWildcard : GlobalWildcard) (compiled : List Str) (pattern : Str) :
    Except Str (List Str) :=
  let raw := trim pattern
  let host := (splitWildcard raw).2
  if globalWildcard = .reject ∧ isGlobalWildcardDomainPattern pattern then
    .error ("unsupported global wildcard domain pattern \"*\"; use exact hosts or scoped " ++
      "wildcards like *.example.com or **.example.com").toList
  else if ¬ supportedSyntax raw then
    .error ("unsupported domain pattern syntax: ".toList ++ pattern)
  else if "**".toList <:+: host then
    .error ("unsupported repeated wildcard: ".toList ++ pattern)
  else if host.any isBracket ∧ ¬ supportedBrackets host then
    .error ("brackets are only supported for IPv6 literals or [*]: ".toList ++ pattern)
  else (candidates pattern).foldlM addCandidate compiled

def DomainPatternSet.new (patterns : List Str) (globalWildcard : GlobalWildcard) :
    Except Str DomainPatternSet := do
  let compiled ← patterns.foldlM (addPattern globalWildcard) []
  return ⟨compiled.map asBytes⟩

def compileAllowlist (patterns : List Str) : Except Str DomainPatternSet :=
  DomainPatternSet.new patterns .allow

def compileDenylist (patterns : List Str) : Except Str DomainPatternSet :=
  DomainPatternSet.new patterns .reject

/-! ## Matching -/

def isStarByte (b : ℕ) : Bool := b = 42

/-- A question mark accepts every byte, another byte itself in either case. -/
def acceptByte (b host : ℕ) : Bool := b = 63 || toAsciiLowercase b = toAsciiLowercase host

/-- Whether the compiled pattern matches the host. -/
def hostMatches (pattern host : List ℕ) : Bool :=
  Glob.scan isStarByte acceptByte ((host.length + 1) * (pattern.length + 1)) ⟨pattern, host, none⟩

def DomainPatternSet.isMatch (set : DomainPatternSet) (host : Str) : Bool :=
  set.patterns.any fun pattern => hostMatches pattern (asBytes host)

/-- What one byte of a pattern stands for: a star for every text, a question mark for every byte
and another byte for itself in either case. -/
def byteLanguage (b : ℕ) : Language ℕ :=
  if b = 42 then ⊤
  else if b = 63 then {text | ∃ c, text = [c]}
  else {text | ∃ c, text = [c] ∧ toAsciiLowercase b = toAsciiLowercase c}

theorem matches_iff_mem_language {pattern host : List ℕ} :
    Glob.Matches isStarByte acceptByte pattern host ↔ host ∈ (pattern.map byteLanguage).prod := by
  induction pattern generalizing host with
  | nil => rw [matches_nil_iff, map_nil, prod_nil, Language.mem_one]
  | cons b pattern ih =>
    rw [map_cons, prod_cons, Language.mem_mul]
    by_cases hstar : b = 42
    · rw [matches_star_iff (by simp [isStarByte, hstar]), byteLanguage, if_pos hstar]
      simp only [ih]
      constructor
      · rintro ⟨rest, ⟨front, rfl⟩, hrest⟩
        exact ⟨front, trivial, rest, hrest, rfl⟩
      · rintro ⟨front, -, rest, hrest, rfl⟩
        exact ⟨rest, ⟨front, rfl⟩, hrest⟩
    · have hbyte : ∀ text, text ∈ byteLanguage b ↔ ∃ c, text = [c] ∧ acceptByte b c = true := by
        intro text
        rw [byteLanguage, if_neg hstar]
        split_ifs with hany <;> simp only [acceptByte, hany] <;> simp <;> rfl
      rw [matches_item_iff (by simp [isStarByte, hstar])]
      simp only [hbyte, ih]
      constructor
      · rintro ⟨c, rest, rfl, hc, hrest⟩
        exact ⟨[c], ⟨c, rfl, hc⟩, rest, hrest, rfl⟩
      · rintro ⟨_, ⟨c, rfl, hc⟩, rest, hrest, rfl⟩
        exact ⟨c, rest, rfl, hc, hrest⟩

/-- The loop of the matcher ends, and with the answer whether the host is in the language of the
pattern. -/
theorem hostMatches_language (pattern host : List ℕ) :
    outcome isStarByte acceptByte ((host.length + 1) * (pattern.length + 1))
        ⟨pattern, host, none⟩ = some (hostMatches pattern host) ∧
      (hostMatches pattern host = true ↔ host ∈ (pattern.map byteLanguage).prod) := by
  rw [← matches_iff_mem_language]
  exact scan_decides le_rfl

/-- The wildcard pattern matches the host. -/
def Covers (candidate host : Str) : Prop :=
  Glob.Matches isStarByte acceptByte (asBytes candidate) (asBytes host)

theorem hostMatches_iff {candidate host : Str} :
    hostMatches (asBytes candidate) (asBytes host) = true ↔ Covers candidate host :=
  (scan_decides le_rfl).2

@[simp] theorem asBytes_dot (s : Str) : asBytes ('.' :: s) = 46 :: asBytes s := rfl

theorem matches_dot_iff {rest bytes : List ℕ} :
    Glob.Matches isStarByte acceptByte (46 :: rest) bytes ↔
      ∃ back, bytes = 46 :: back ∧ Glob.Matches isStarByte acceptByte rest back := by
  have haccept : ∀ b, acceptByte 46 b = true ↔ b = 46 := by
    intro b
    simp only [acceptByte, toAsciiLowercase]
    split_ifs <;> simp <;> omega
  rw [matches_item_iff (by decide)]
  constructor
  · rintro ⟨b, back, rfl, hb, hback⟩
    exact ⟨back, by rw [(haccept b).mp hb], hback⟩
  · rintro ⟨back, rfl, hback⟩
    exact ⟨46, back, rfl, by decide, hback⟩

/-- A strict subdomain has at least one byte in front of the dot. -/
theorem matches_subdomain_iff {domain : Str} {bytes : List ℕ} :
    Glob.Matches isStarByte acceptByte (asBytes ("?*.".toList ++ domain)) bytes ↔
      ∃ front back, bytes = front ++ 46 :: back ∧ front ≠ [] ∧
        Glob.Matches isStarByte acceptByte (asBytes domain) back := by
  have hbytes : asBytes ("?*.".toList ++ domain) = 63 :: 42 :: 46 :: asBytes domain := rfl
  rw [hbytes, matches_item_iff (by decide)]
  simp only [matches_star_iff (show isStarByte 42 = true by decide), matches_dot_iff]
  constructor
  · rintro ⟨b, rest, rfl, -, _, ⟨front, rfl⟩, back, rfl, hback⟩
    exact ⟨b :: front, back, rfl, by simp, hback⟩
  · rintro ⟨front, back, rfl, hne, hback⟩
    obtain ⟨b, front, rfl⟩ := exists_cons_of_ne_nil hne
    exact ⟨b, front ++ 46 :: back, rfl, rfl, 46 :: back, ⟨front, rfl⟩, back, rfl, hback⟩

theorem eq_star_of_utf8Char {c : Char} (h : ∀ b ∈ utf8Char c, isStarByte b = true) : c = '*' := by
  simp only [isStarByte, decide_eq_true_eq] at h
  apply Char.ext
  apply UInt32.toNat_inj.mp
  unfold utf8Char at h
  dsimp only at h
  split_ifs at h
  · exact h _ (by simp)
  all_goals
    have hfirst := h _ mem_cons_self
    omega

/-- Only stars cover the empty host. -/
theorem eq_star_of_matches_nil {s : Str}
    (h : Glob.Matches isStarByte acceptByte (asBytes s) []) : ∀ c ∈ s, c = '*' := by
  intro c hc
  refine eq_star_of_utf8Char fun b hb => ?_
  exact matches_nil_right_iff.mp h b (mem_flatMap.mpr ⟨c, hc, hb⟩)

/-! ## What a compiled set matches -/

/-- What the compiler has checked of a pattern. -/
structure Supported : Prop where
  whitespace : ∀ c ∈ trim pattern, isWhitespace c = false
  stars : ¬ "**".toList <:+: (splitWildcard (trim pattern)).2
  brackets : (splitWildcard (trim pattern)).2.any isBracket = true →
    supportedBrackets (splitWildcard (trim pattern)).2 = true
  nonempty : ∀ candidate ∈ candidates pattern, candidate ≠ []

theorem foldlM_addCandidate {items compiled result : List Str} (hne : [] ∉ compiled)
    (h : items.foldlM addCandidate compiled = .ok result) :
    [] ∉ result ∧ ∀ candidate, candidate ∈ result ↔ candidate ∈ compiled ∨ candidate ∈ items := by
  refine foldlM_invariant (I := fun past a => [] ∉ a ∧
    ∀ candidate, candidate ∈ a ↔ candidate ∈ compiled ∨ candidate ∈ past) ⟨hne, by simp⟩ ?_ h
  rintro past a item b ⟨hnil, hmem⟩ - hb
  simp only [addCandidate] at hb
  split_ifs at hb with hseen hempty
  · cases hb
    refine ⟨hnil, fun candidate => ?_⟩
    have hitem : candidate = item → candidate ∈ compiled ∨ candidate ∈ past := by
      rintro rfl
      exact (hmem candidate).mp hseen
    simp only [hmem, mem_append, mem_singleton]
    tauto
  · cases hb
    refine ⟨by simpa [hnil] using Ne.symm hempty, fun candidate => ?_⟩
    simp only [hmem, mem_append]
    tauto

/-- The compiled patterns are the candidates of all patterns, each of which is supported. -/
theorem foldlM_addPattern {globalWildcard : GlobalWildcard} {patterns result : List Str}
    (h : patterns.foldlM (addPattern globalWildcard) [] = .ok result) :
    [] ∉ result ∧
      (∀ candidate, candidate ∈ result ↔ ∃ pattern ∈ patterns, candidate ∈ candidates pattern) ∧
      ∀ pattern ∈ patterns, Supported pattern ∧
        (globalWildcard = .reject → isGlobalWildcardDomainPattern pattern = false) := by
  refine foldlM_invariant (I := fun past a => [] ∉ a ∧
    (∀ candidate, candidate ∈ a ↔ ∃ pattern ∈ past, candidate ∈ candidates pattern) ∧
    ∀ pattern ∈ past, Supported pattern ∧
      (globalWildcard = .reject → isGlobalWildcardDomainPattern pattern = false))
    ⟨by simp, by simp, by simp⟩ ?_ h
  rintro past a pattern b ⟨hnil, hmem, hsupported⟩ - hb
  simp only [addPattern] at hb
  split_ifs at hb with hglobal hsyntax hstars hbrackets
  obtain ⟨hnil', hmem'⟩ := foldlM_addCandidate hnil hb
  refine ⟨hnil', fun candidate => ?_, ?_⟩
  · rw [hmem', hmem]
    simp only [mem_append, mem_singleton, or_and_right, exists_or, exists_eq_left]
  · intro other hother
    rcases mem_append.mp hother with hpast | hlast
    · exact hsupported other hpast
    · cases mem_singleton.mp hlast
      refine ⟨⟨?_, hstars, by simpa using hbrackets, ?_⟩, by simpa using hglobal⟩
      · intro c hc
        have hall : supportedSyntax (trim pattern) = true := by simpa using hsyntax
        replace hall := all_eq_true.mp hall c hc
        simp only [Bool.and_eq_true, Bool.not_eq_true'] at hall
        exact hall.2
      · rintro candidate hcandidate rfl
        exact hnil' ((hmem' []).mpr (.inr hcandidate))

section New

variable {patterns : List Str} {globalWildcard : GlobalWildcard} {set : DomainPatternSet}

variable (h : DomainPatternSet.new patterns globalWildcard = .ok set)
include h

theorem exists_of_new :
    ∃ compiled, patterns.foldlM (addPattern globalWildcard) [] = .ok compiled ∧
      set = ⟨compiled.map asBytes⟩ := by
  obtain ⟨compiled, hcompiled, hset⟩ := bind_eq_ok h
  cases hset
  exact ⟨compiled, hcompiled, rfl⟩

theorem supported_of_new {pattern : Str} (hpattern : pattern ∈ patterns) : Supported pattern := by
  obtain ⟨compiled, hcompiled, -⟩ := exists_of_new h
  exact ((foldlM_addPattern hcompiled).2.2 pattern hpattern).1

/-- A compiled set matches a host that some pattern of the set covers. -/
theorem isMatch_new_iff {host : Str} :
    set.isMatch host = true ↔
      ∃ pattern ∈ patterns, ∃ candidate ∈ candidates pattern, Covers candidate host := by
  obtain ⟨compiled, hcompiled, rfl⟩ := exists_of_new h
  obtain ⟨-, hmem, -⟩ := foldlM_addPattern hcompiled
  simp only [DomainPatternSet.isMatch, any_map, any_eq_true, Function.comp_apply,
    hostMatches_iff, hmem]
  constructor
  · rintro ⟨candidate, ⟨pattern, hpattern, hcandidate⟩, hcovers⟩
    exact ⟨pattern, hpattern, candidate, hcandidate, hcovers⟩
  · rintro ⟨pattern, hpattern, candidate, hcandidate, hcovers⟩
    exact ⟨candidate, ⟨pattern, hpattern, hcandidate⟩, hcovers⟩

end New

/-! ## The candidates of a pattern -/

theorem splitWildcard_cases (pattern : Str) :
    (∃ domain, pattern = apexWildcard ++ domain ∧ splitWildcard pattern = (apexWildcard, domain)) ∨
    (∃ domain, pattern = subdomainWildcard ++ domain ∧
      splitWildcard pattern = (subdomainWildcard, domain)) ∨
    (splitWildcard pattern = ([], pattern) ∧ stripPrefix apexWildcard pattern = none ∧
      stripPrefix subdomainWildcard pattern = none) := by
  unfold splitWildcard
  cases hapex : stripPrefix apexWildcard pattern with
  | some domain => exact .inl ⟨domain, stripPrefix_eq_some_iff.mp hapex, rfl⟩
  | none =>
    cases hsub : stripPrefix subdomainWildcard pattern with
    | some domain => exact .inr (.inl ⟨domain, stripPrefix_eq_some_iff.mp hsub, rfl⟩)
    | none => exact .inr (.inr ⟨rfl, rfl, rfl⟩)

@[simp] theorem splitWildcard_apex (domain : Str) :
    splitWildcard (apexWildcard ++ domain) = (apexWildcard, domain) := by
  have hstrip := stripPrefix_eq_some_iff.mpr (rfl : apexWildcard ++ domain = apexWildcard ++ domain)
  simp [splitWildcard, hstrip]

@[simp] theorem splitWildcard_subdomain (domain : Str) :
    splitWildcard (subdomainWildcard ++ domain) = (subdomainWildcard, domain) := by
  have hstrip :=
    stripPrefix_eq_some_iff.mpr (rfl : subdomainWildcard ++ domain = subdomainWildcard ++ domain)
  have hapex : stripPrefix apexWildcard (subdomainWildcard ++ domain) = none := by
    simp [apexWildcard, subdomainWildcard, stripPrefix]
  simp [splitWildcard, hstrip, hapex]

theorem splitOnce_eq_some {delimiter s before after : Str}
    (h : splitOnce delimiter s = some (before, after)) : s = before ++ delimiter ++ after := by
  induction s generalizing before with
  | nil =>
    obtain ⟨rest, hrest, heq⟩ := Option.map_eq_some_iff.mp h
    cases heq
    simpa using stripPrefix_eq_some_iff.mp hrest
  | cons c s ih =>
    unfold splitOnce at h
    split at h
    · next rest hrest =>
        cases h
        simpa using stripPrefix_eq_some_iff.mp hrest
    · obtain ⟨⟨before', after'⟩, hsplit, heq⟩ := Option.map_eq_some_iff.mp h
      cases heq
      rw [ih hsplit]
      simp

/-- A character of a normalised host comes from the host, but for the mark of a scope. -/
theorem mem_normalizeDnsHostOrIpLiteral {host : Str} {c : Char}
    (h : c ∈ normalizeDnsHostOrIpLiteral host) : c ∈ toLowercase host ∨ c = '%' := by
  have htrim : ∀ c ∈ trimEndDots (toLowercase host), c ∈ toLowercase host :=
    fun c hc => (List.rdropWhile_prefix _ _).subset hc
  simp only [normalizeDnsHostOrIpLiteral] at h
  generalize trimEndDots (toLowercase host) = trimmed at h htrim
  cases hip : normalizeIpLiteral trimmed with
  | none =>
    rw [hip] at h
    exact .inl (htrim c h)
  | some literal =>
    rw [hip] at h
    unfold normalizeIpLiteral at hip
    split_ifs at hip
    · cases hip
      exact .inl (htrim c h)
    · obtain ⟨delimiter, -, hscoped⟩ := exists_of_findSome?_eq_some hip
      unfold scopedIpLiteral at hscoped
      split at hscoped
      · next ip scope hsplit =>
          split_ifs at hscoped
          cases hscoped
          have hparts := splitOnce_eq_some hsplit
          rcases mem_append.mp h with hip' | hscope
          · exact .inl (htrim c (by rw [hparts]; simp [hip']))
          · rcases mem_cons.mp hscope with rfl | hscope
            · exact .inr rfl
            · exact .inl (htrim c (by rw [hparts]; simp [hscope]))
      · cases hscoped

theorem mem_normalizeHost {host : Str} {c : Char} (h : c ∈ normalizeHost host) :
    c ∈ toLowercase host ∨ c = '%' := by
  have hlower : ∀ part : Str, (∀ b ∈ part, b ∈ host) → c ∈ normalizeDnsHostOrIpLiteral part →
      c ∈ toLowercase host ∨ c = '%' := by
    intro part hpart hc
    refine (mem_normalizeDnsHostOrIpLiteral hc).imp_left ?_
    intro hmem
    obtain ⟨b, hb, rfl⟩ := mem_map.mp hmem
    exact mem_map.mpr ⟨b, hpart b hb, rfl⟩
  have htrim : ∀ b ∈ trim host, b ∈ host := fun b hb => mem_of_mem_trim hb
  unfold normalizeHost at h
  dsimp only at h
  generalize trim host = trimmed at h htrim
  split at h
  · next inner hinner =>
      refine hlower inner (fun b hb => htrim b ?_) h
      unfold bracketed at hinner
      split at hinner
      · obtain ⟨⟨before, after⟩, hsplit, rfl⟩ := Option.map_eq_some_iff.mp hinner
        rw [splitOnce_eq_some hsplit]
        exact mem_cons_of_mem _ (by simp [hb])
      · cases hinner
  · split_ifs at h
    · exact hlower _ (fun b hb => htrim b (List.takeWhile_prefix _ |>.subset hb)) h
    · exact hlower _ htrim h

theorem toNat_toLower (c : Char) :
    c.toLower.toNat = if 65 ≤ c.toNat ∧ c.toNat ≤ 90 then c.toNat + 32 else c.toNat := by
  have hdiff : ('a'.val - 'A'.val).toNat = 32 := rfl
  unfold Char.toLower
  by_cases h : c.val ≥ 'A'.val ∧ c.val ≤ 'Z'.val
  · have hnat : 65 ≤ c.toNat ∧ c.toNat ≤ 90 := h
    rw [dif_pos h, if_pos hnat]
    change (c.val + ('a'.val - 'A'.val)).toNat = c.val.toNat + 32
    rw [UInt32.toNat_add]
    have hle : c.val.toNat ≤ 90 := hnat.2
    omega
  · have hnat : ¬ (65 ≤ c.toNat ∧ c.toNat ≤ 90) := h
    rw [dif_neg h, if_neg hnat]

/-- Only letters change in lower case. -/
theorem eq_of_toLower_eq {c d : Char} (h : c.toLower = d) (hd : d.toNat < 97 ∨ 122 < d.toNat) :
    c = d := by
  have hnat := congrArg Char.toNat h
  rw [toNat_toLower] at hnat
  apply Char.ext
  apply UInt32.toNat_inj.mp
  change c.toNat = d.toNat
  split_ifs at hnat with hupper <;> omega

theorem isWhitespace_toLower (c : Char) : isWhitespace c.toLower = isWhitespace c := by
  rw [Bool.eq_iff_iff]
  simp only [isWhitespace, toNat_toLower, Bool.or_eq_true, Bool.and_eq_true, decide_eq_true_eq]
  split_ifs <;> omega

theorem isWhitespace_of_mem_normalizeHost {host : Str}
    (h : ∀ c ∈ host, isWhitespace c = false) : ∀ c ∈ normalizeHost host, isWhitespace c = false := by
  intro c hc
  rcases mem_normalizeHost hc with hmem | rfl
  · obtain ⟨b, hb, rfl⟩ := mem_map.mp hmem
    rw [isWhitespace_toLower]
    exact h b hb
  · decide

theorem candidates_plain {pattern : Str}
    (hsplit : splitWildcard (trim pattern) = ([], trim pattern)) :
    candidates pattern = expandDomainPattern (normalizeHost (trim pattern)) := by
  unfold candidates normalizePattern
  by_cases hstar : trim pattern = ['*']
  · rw [hstar]
    decide
  · rw [if_neg hstar, hsplit, nil_append]

namespace Supported

variable {pattern domain : Str}

variable (h : Supported pattern)
include h

/-- Behind a wildcard, the rest of the pattern is compiled as a host of its own. -/
theorem expand_wildcard {wildcard : Str} (htrim : trim pattern = wildcard ++ domain)
    (hwildcard : wildcard = apexWildcard ∨ wildcard = subdomainWildcard) :
    candidates pattern =
      if normalizeHost domain = [] then [[]]
      else if wildcard = apexWildcard then
        [normalizeHost domain, "?*.".toList ++ normalizeHost domain]
      else ["?*.".toList ++ normalizeHost domain] := by
  have hsplit : ∀ rest, splitWildcard (wildcard ++ rest) = (wildcard, rest) := by
    rcases hwildcard with rfl | rfl <;> simp
  have hne : wildcard ++ domain ≠ ['*'] := by
    rcases hwildcard with rfl | rfl <;> simp [apexWildcard, subdomainWildcard]
  have hnil : wildcard ≠ [] := by
    rcases hwildcard with rfl | rfl <;> simp [apexWildcard, subdomainWildcard]
  have hpattern : normalizePattern pattern = wildcard ++ normalizeHost domain := by
    simp [normalizePattern, htrim, hne, hsplit]
  have hdomain : ∀ c ∈ normalizeHost domain, isWhitespace c = false :=
    isWhitespace_of_mem_normalizeHost fun c hc => h.whitespace c (by simp [htrim, hc])
  have hall : ∀ c ∈ wildcard ++ normalizeHost domain, isWhitespace c = false :=
    forall_mem_append.mpr ⟨fun c hc => h.whitespace c (by simp [htrim, hc]), hdomain⟩
  simp only [candidates, hpattern, expandDomainPattern, trim_eq_self hall, hsplit,
    trim_eq_self hdomain, hnil, if_false]

theorem normalizeHost_ne_nil {wildcard : Str} (htrim : trim pattern = wildcard ++ domain)
    (hwildcard : wildcard = apexWildcard ∨ wildcard = subdomainWildcard) :
    normalizeHost domain ≠ [] := by
  intro hempty
  exact h.nonempty [] (by simp [h.expand_wildcard htrim hwildcard, hempty]) rfl

theorem candidates_apex (htrim : trim pattern = apexWildcard ++ domain) :
    candidates pattern = [normalizeHost domain, "?*.".toList ++ normalizeHost domain] := by
  rw [h.expand_wildcard htrim (.inl rfl), if_neg (h.normalizeHost_ne_nil htrim (.inl rfl)),
    if_pos rfl]

theorem candidates_subdomain (htrim : trim pattern = subdomainWildcard ++ domain) :
    candidates pattern = ["?*.".toList ++ normalizeHost domain] := by
  rw [h.expand_wildcard htrim (.inr rfl), if_neg (h.normalizeHost_ne_nil htrim (.inr rfl)),
    if_neg (by decide)]

end Supported

end Codex.NetworkProxy
