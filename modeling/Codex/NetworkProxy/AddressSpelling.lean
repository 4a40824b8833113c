import Codex.NetworkProxy.HostPolicy
import Codex.NetworkProxy.PatternKey

/-!
# Spellings of an address

An address has more than one spelling: `2001:db8::1` is also `2001:db8:0::1`.  The proxy
recognises an address in a host but keeps its spelling, and deny patterns are matched with the
text.  So an explicit denial of an address holds for the hosts that are normalised to its text, and
a host that spells the address otherwise gets past it (`respelled_not_denied`).

Two hosts with one address and scope are denied alike by all states exactly if the address is an
IPv4 address, which has one spelling, or both hosts are normalised to one text (`denied_alike`).
One direction is immediate.  For the other one a state is needed that tells two texts apart:

* a spelling is a pattern that the compiler takes as it is (`Spelling.compileDenylist_eq`);
* as a pattern it matches the texts that agree with it up to the case (`Spelling.matches_iff`), and
  normalised texts are in lower case;
* the scope makes no difference, as its mark is in no address.
-/

namespace Codex.NetworkProxy

open Text Bytes

/-- The address that a normalised host stands for, and the scope. -/
def ipAndScope (host : Str) : Option (IpAddr × Option Str) :=
  match splitOnce ['%'] host with
  | some (ip, scope) => (parseIpAddr ip).map (·, some scope)
  | none => (parseIpAddr host).map (·, none)

/-! ## The pattern of a spelling -/

theorem range_of_isIpChar {c : Char} (h : isIpChar c = true) :
    c.toNat = 46 ∨ 48 ≤ c.toNat ∧ c.toNat ≤ 58 ∨ 65 ≤ c.toNat ∧ c.toNat ≤ 90 ∨
      97 ≤ c.toNat ∧ c.toNat ≤ 122 := by
  simp only [isIpChar, Bool.or_eq_true, decide_eq_true_eq] at h
  rcases h with (rfl | rfl) | hdigit
  · decide
  · decide
  · have hle : ∀ {a b : Char}, a ≤ b → a.toNat ≤ b.toNat := fun hab => hab
    obtain ⟨value, hvalue⟩ := Option.isSome_iff_exists.mp hdigit
    have hread := (Option.filter_eq_some_iff.mp hvalue).1
    split_ifs at hread with hnumeral hlower hupper
    · exact .inr (.inl ⟨hle hnumeral.1, (hle hnumeral.2).trans (by decide)⟩)
    · exact .inr (.inr (.inr ⟨hle hlower.1, hle hlower.2⟩))
    · exact .inr (.inr (.inl ⟨hle hupper.1, hle hupper.2⟩))

theorem isWhitespace_of_isIpChar {c : Char} (h : isIpChar c = true) : isWhitespace c = false := by
  have hrange := range_of_isIpChar h
  simp only [isWhitespace, Bool.or_eq_false_iff, Bool.and_eq_false_iff, decide_eq_false_iff_not]
  omega

theorem toAsciiLowercase_of_toLower {c : Char} (h : c.toLower = c) :
    toAsciiLowercase c.toNat = c.toNat := by
  have hsame := congrArg Char.toNat h
  rwa [toNat_toLower] at hsame

/-- The text of an address in a normalised host. -/
structure Spelling (s : Str) : Prop where
  parses : (parseIpAddr s).isSome = true
  lower : ∀ c ∈ s, c.toLower = c

namespace Spelling

variable {s : Str} (h : Spelling s)

include h

theorem addressText : AddressText s ∧ s.count ':' ≠ 1 := by
  obtain ⟨ip, hip⟩ := Option.isSome_iff_exists.mp h.parses
  exact addressText_of_parseIpAddr hip

theorem notMem {c : Char} (hc : isIpChar c = false) : c ∉ s := by
  intro hmem
  have hchar := h.addressText.1.chars c hmem
  rw [hc] at hchar
  cases hchar

theorem ne_nil : s ≠ [] := by
  rintro rfl
  exact absurd h.parses (by decide)

theorem trim_eq : trim s = s :=
  trim_eq_self fun c hc => isWhitespace_of_isIpChar (h.addressText.1.chars c hc)

theorem normalizeHost_eq_self : normalizeHost s = s := by
  have hbracketed : bracketed s = none := by
    unfold bracketed
    split
    · exact absurd List.mem_cons_self (h.notMem (by decide))
    · rfl
  have hlower : toLowercase s = s := (List.map_congr_left (g := id) h.lower).trans (List.map_id s)
  have hdots : trimEndDots s = s := by
    refine List.rdropWhile_eq_self_iff.mpr fun hne => ?_
    have hlast := h.addressText.1.last
    rw [List.getLast?_eq_some_getLast hne] at hlast
    simpa using hlast
  have hlowered : lowered s = s := by
    rw [lowered, cutPort, if_neg h.addressText.2, hlower, hdots]
  rw [normalizeHost_eq h.trim_eq, hbracketed]
  simp [hlowered, normalizeLowered, normalizeIpLiteral, h.parses]

theorem splitWildcard_eq : splitWildcard s = ([], s) := by
  have hstar := h.notMem (by decide : isIpChar '*' = false)
  obtain ⟨domain, rfl, -⟩ | ⟨domain, rfl, -⟩ | ⟨hplain, -⟩ := splitWildcard_cases s
  · exact absurd (List.mem_append_left _ (by decide)) hstar
  · exact absurd (List.mem_append_left _ (by decide)) hstar
  · exact hplain

theorem candidates_eq : candidates s = [s] := by
  rw [candidates_plain (by rw [h.trim_eq, h.splitWildcard_eq]), h.trim_eq, h.normalizeHost_eq_self]
  simp [expandDomainPattern, h.trim_eq, h.splitWildcard_eq]

theorem compileDenylist_eq : compileDenylist [s] = .ok ⟨[asBytes s]⟩ := by
  have hsupported : supportedSyntax s = true := by
    refine List.all_eq_true.mpr fun c hc => ?_
    have hne : ∀ {d}, isIpChar d = false → c ≠ d := fun hd heq => h.notMem hd (heq ▸ hc)
    simp [hne (by decide : isIpChar '\x7b' = false), hne (by decide : isIpChar '\x7d' = false),
      hne (by decide : isIpChar '\\' = false), hne (by decide : isIpChar '/' = false),
      isWhitespace_of_isIpChar (h.addressText.1.chars c hc)]
  have hstar := h.notMem (by decide : isIpChar '*' = false)
  have hglobal : isGlobalWildcardDomainPattern s = false := by
    have hne : s ≠ ['*'] := by
      rintro rfl
      exact hstar List.mem_cons_self
    simp [isGlobalWildcardDomainPattern, h.candidates_eq, hne]
  have hrepeated : ¬ "**".toList <:+: s := fun hstars => hstar (hstars.subset (by decide))
  have hbrackets : s.any isBracket = false := by
    refine List.any_eq_false.mpr fun c hc hbracket => ?_
    simp only [isBracket, Bool.or_eq_true, decide_eq_true_eq] at hbracket
    rcases hbracket with rfl | rfl
    · exact h.notMem (by decide) hc
    · exact h.notMem (by decide) hc
  have hadd : addPattern .reject [] s = .ok [s] := by
    unfold addPattern
    dsimp only
    rw [h.trim_eq, h.splitWildcard_eq, if_neg (by simp [hglobal]), if_neg (by simp [hsupported]),
      if_neg hrepeated, if_neg (by simp [hbrackets]), h.candidates_eq]
    simp [addCandidate, h.ne_nil]
  simp [compileDenylist, DomainPatternSet.new, hadd]

omit h in
/-- A state that denies this spelling only. -/
def denying (h : Spelling s) : ConfigState where
  executorOs := .linux
  config := { NetworkProxyConfig.default with domains := some ⟨[⟨s, .deny⟩]⟩ }
  brokerageCreatedDefaultAllowlist := false
  allowSet := ⟨[]⟩
  denySet := ⟨[asBytes s]⟩
  constraints := .default
  allowSet_eq := rfl
  denySet_eq := h.compileDenylist_eq

theorem toNat_lt {c : Char} (hc : c ∈ s) : c.toNat < 128 := by
  have hrange := range_of_isIpChar (h.addressText.1.chars c hc)
  omega

theorem asBytes_eq : asBytes s = s.map Char.toNat := by
  have hone : ∀ c ∈ s, utf8Char c = [c.toNat] := fun c hc => if_pos (h.toNat_lt hc)
  rw [asBytes, List.flatMap_congr hone, List.map_eq_flatMap]

theorem foldCase_asBytes : foldCase (asBytes s) = s.map Char.toNat := by
  rw [h.asBytes_eq, foldCase, List.map_map]
  exact List.map_congr_left fun c hc => toAsciiLowercase_of_toLower (h.lower c hc)

/-- The pattern matches what is spelled alike, up to the case. -/
theorem matches_iff {bytes : List ℕ} :
    Glob.Matches isStarByte acceptByte (asBytes s) bytes ↔ foldCase bytes = s.map Char.toNat := by
  rw [h.asBytes_eq]
  have hchars := h.addressText.1.chars
  have hlower := h.lower
  clear h
  induction s generalizing bytes with
  | nil => simp [foldCase]
  | cons c s ih =>
    have hrange := range_of_isIpChar (hchars c List.mem_cons_self)
    have hfold := toAsciiLowercase_of_toLower (hlower c List.mem_cons_self)
    have haccept : ∀ b, acceptByte c.toNat b = true ↔ toAsciiLowercase b = c.toNat := by
      intro b
      have hquestion : c.toNat ≠ 63 := by omega
      simp [acceptByte, hquestion, hfold, eq_comm]
    have hstar : isStarByte c.toNat = false := decide_eq_false (by omega)
    rw [List.map_cons, Glob.matches_item_iff hstar]
    simp only [haccept, ih (fun d hd => hchars d (List.mem_cons_of_mem _ hd))
      fun d hd => hlower d (List.mem_cons_of_mem _ hd)]
    cases bytes <;> simp [foldCase]

theorem isMatch_denying {host : Str} :
    h.denying.denySet.isMatch host = true ↔ foldCase (asBytes host) = s.map Char.toNat := by
  simp [denying, DomainPatternSet.isMatch, hostMatches_iff, Covers, h.matches_iff]

/-- The state tells spellings apart, with a scope or without. -/
theorem eq_of_isMatch_denying {t : Str} {scope : Option Str} (ht : Spelling t)
    (hmatch : h.denying.denySet.isMatch (t ++ scope.elim [] ('%' :: ·)) = true ∨
      h.denying.denySet.isMatch t = true) : s = t := by
  rw [h.isMatch_denying, h.isMatch_denying] at hmatch
  have hcodes : s.map Char.toNat = t.map Char.toNat := by
    rw [← ht.foldCase_asBytes]
    rcases hmatch with hwhole | hliteral
    · cases scope with
      | none => simpa using hwhole.symm
      | some zone =>
        -- the mark of the scope is in no address
        have hmark : 37 ∈ s.map Char.toNat := by
          rw [← hwhole, asBytes_append]
          simp [foldCase, asBytes, utf8Char, toAsciiLowercase]
        obtain ⟨c, hc, hcode⟩ := List.mem_map.mp hmark
        have hrange := range_of_isIpChar (h.addressText.1.chars c hc)
        omega
    · exact hliteral.symm
  have hinjective : Function.Injective Char.toNat := fun c d hcode =>
    Char.ext (UInt32.toNat_inj.mp hcode)
  exact List.map_injective_iff.mpr hinjective hcodes

end Spelling

/-! ## Hosts with one address -/

theorem toLower_of_mem_normalizeHost {host : Str} {c : Char} (h : c ∈ normalizeHost host) :
    c.toLower = c := by
  rcases mem_normalizeHost h with hmem | rfl
  · obtain ⟨b, -, rfl⟩ := List.mem_map.mp hmem
    exact List.singleton_inj.mp (toLowercase_idem [b])
  · decide

/-- A host with an address is the literal and the scope, and these are matched: all of it, and the
literal. -/
theorem exists_literal {host : Str} {ip : IpAddr} {scope : Option Str}
    (h : ipAndScope host = some (ip, scope)) :
    ∃ literal, parseIpAddr literal = some ip ∧ host = literal ++ scope.elim [] ('%' :: ·) ∧
      ∀ set, domainsMatchHostOrUnscoped set host = true ↔
        set.isMatch host = true ∨ set.isMatch literal = true := by
  unfold ipAndScope at h
  cases hsplit : splitOnce ['%'] host with
  | none =>
    rw [hsplit] at h
    obtain ⟨_, hip, heq⟩ := Option.map_eq_some_iff.mp h
    cases heq
    refine ⟨host, hip, by simp, fun set => ?_⟩
    simp [domainsMatchHostOrUnscoped, unscopedIpLiteral, hsplit]
  | some parts =>
    obtain ⟨literal, zone⟩ := parts
    rw [hsplit] at h
    obtain ⟨_, hip, heq⟩ := Option.map_eq_some_iff.mp h
    cases heq
    refine ⟨literal, hip, by simpa using splitOnce_eq_some hsplit, fun set => ?_⟩
    simp [domainsMatchHostOrUnscoped, unscopedIpLiteral, hsplit, hip]

/-- What is matched of a host with an address: its text, and the spelling of the address. -/
theorem exists_spelling {host : Str} {ip : IpAddr} {scope : Option Str}
    (h : ipAndScope (normalizeHost host) = some (ip, scope)) :
    ∃ s, Spelling s ∧ normalizeHost host = s ++ scope.elim [] ('%' :: ·) ∧
      ∀ set, domainsMatchHostOrUnscoped set (normalizeHost host) = true ↔
        set.isMatch (normalizeHost host) = true ∨ set.isMatch s = true := by
  obtain ⟨literal, hip, htext, hmatch⟩ := exists_literal h
  have hlower : ∀ c ∈ literal, c.toLower = c := fun c hc =>
    toLower_of_mem_normalizeHost (htext ▸ List.mem_append_left _ hc)
  exact ⟨literal, ⟨by simp [hip], hlower⟩, htext, hmatch⟩

/-- A host with an IPv4 address has one normal form. -/
theorem eq_of_ipAndScope {host : Str} {ip : Ipv4Addr} {scope : Option Str}
    (h : ipAndScope host = some (.v4 ip, scope)) :
    host = ip.text ++ scope.elim [] ('%' :: ·) := by
  obtain ⟨literal, hip, htext, -⟩ := exists_literal h
  rw [htext, eq_text_of_parseIpAddr hip]

section Denied

variable (resolver : Resolver) (policy : LocalBindingPolicy) (port : UInt16)
  (allowLocalBinding : Option Bool) (authorization : HostAuthorization)

/-- The host is blocked as denied. -/
def Denied (state : ConfigState) (host : Str) : Prop :=
  (hostBlockedWithLookup resolver policy (.ok state) host port allowLocalBinding authorization).1 =
    .ok (.blocked .denied)

variable {resolver policy port allowLocalBinding authorization}

theorem denied_iff {state : ConfigState} {host : Str} (hne : normalizeHost host ≠ []) :
    Denied resolver policy port allowLocalBinding authorization state host ↔
      domainsMatchHostOrUnscoped state.denySet (normalizeHost host) = true := by
  have hparse : Host.parse host = .ok ⟨normalizeHost host, hne⟩ := dif_neg hne
  simp only [Denied, hostBlockedWithLookup, hparse, Except.ok.injEq]
  exact judgeHost_denied_iff

instance (state : ConfigState) (host : Str) :
    Decidable (Denied resolver policy port allowLocalBinding authorization state host) :=
  inferInstanceAs (Decidable (_ = _))

end Denied

/-- Of two hosts with one address and scope, all states deny both or neither exactly if the address
is an IPv4 address or they are normalised to one text.  One state denies both or neither exactly if
its deny patterns match both texts or neither, with the scope or without. -/
theorem denied_alike (resolver : Resolver) (policy : LocalBindingPolicy) (port : UInt16)
    (allowLocalBinding : Option Bool) (authorization : HostAuthorization) (host other : Str)
    (ip : IpAddr) (scope : Option Str) (hhost : ipAndScope (normalizeHost host) = some (ip, scope))
    (hother : ipAndScope (normalizeHost other) = some (ip, scope)) :
    let denied := Denied resolver policy port allowLocalBinding authorization
    ((∀ state, denied state host ↔ denied state other) ↔
        (∃ v4, ip = .v4 v4) ∨ normalizeHost host = normalizeHost other) ∧
      ∀ state, (denied state host ↔ denied state other) ↔
        domainsMatchHostOrUnscoped state.denySet (normalizeHost host) =
          domainsMatchHostOrUnscoped state.denySet (normalizeHost other) := by
  intro denied
  obtain ⟨s, hs, hseq, hmatch⟩ := exists_spelling hhost
  obtain ⟨t, ht, hteq, hmatch'⟩ := exists_spelling hother
  have hne : normalizeHost host ≠ [] := by simp [hseq, hs.ne_nil]
  have hne' : normalizeHost other ≠ [] := by simp [hteq, ht.ne_nil]
  have hiff : ∀ state, denied state host ↔ _ := fun _ => denied_iff hne
  have hiff' : ∀ state, denied state other ↔ _ := fun _ => denied_iff hne'
  refine ⟨⟨fun hall => .inr ?_, ?_⟩, fun state => ?_⟩
  · have hself : domainsMatchHostOrUnscoped hs.denying.denySet (normalizeHost host) = true :=
      (hmatch _).mpr (.inr (hs.isMatch_denying.mpr hs.foldCase_asBytes))
    have hdenied := (hall hs.denying).mp ((hiff _).mpr hself)
    rw [hiff', hmatch', hteq] at hdenied
    rw [hseq, hteq, hs.eq_of_isMatch_denying ht hdenied]
  · intro hspelling state
    have hsame : normalizeHost host = normalizeHost other := by
      rcases hspelling with ⟨v4, rfl⟩ | hsame
      · rw [eq_of_ipAndScope hhost, eq_of_ipAndScope hother]
      · exact hsame
    rw [hiff, hiff', hsame]
  · rw [hiff, hiff', Bool.coe_iff_coe]

/-- A state that denies `10.0.0.1` and `2001:db8::1`. -/
def denyingState : ConfigState where
  executorOs := .linux
  config := { NetworkProxyConfig.default with
    domains := some ⟨[⟨"10.0.0.1".toList, .deny⟩, ⟨"2001:db8::1".toList, .deny⟩]⟩ }
  brokerageCreatedDefaultAllowlist := false
  allowSet := ⟨[]⟩
  denySet := ⟨["10.0.0.1".toList, "2001:db8::1".toList].map asBytes⟩
  constraints := .default
  allowSet_eq := by decide
  denySet_eq := by decide

/-- Denied addresses with a port, in brackets, in capitals or with a dot at the end. -/
theorem denied_alike_port :
    let denied := Denied (fun _ _ => .failed) .defaultFalse 443 none .requireAllowlist denyingState
    denied "10.0.0.1".toList ∧ denied "10.0.0.1.:80".toList ∧ denied "2001:db8::1".toList ∧
      denied "[2001:DB8::1]:80".toList := by
  intro denied
  have hdenied : denied "10.0.0.1".toList ∧ denied "2001:db8::1".toList := by decide
  have hport := (denied_alike (fun _ _ => .failed) .defaultFalse 443 none .requireAllowlist
    "10.0.0.1".toList "10.0.0.1.:80".toList (.v4 ⟨10, 0, 0, 1⟩) none (by decide) (by decide)).1.mpr
    (.inl ⟨_, rfl⟩) denyingState
  have hbrackets := (denied_alike (fun _ _ => .failed) .defaultFalse 443 none .requireAllowlist
    "2001:db8::1".toList "[2001:DB8::1]:80".toList
    (.v6 (.ofGroups [0x2001, 0xdb8, 0, 0, 0, 0, 0, 1])) none (by decide) (by decide)).1.mpr
    (.inr (by decide)) denyingState
  exact ⟨hdenied.1, hport.mp hdenied.1, hdenied.2, hbrackets.mp hdenied.2⟩

/-- The address is denied, but not with a group of zeros written out. -/
theorem respelled_not_denied :
    let host := "2001:db8::1".toList
    let other := "2001:db8:0::1".toList
    (ipAndScope (normalizeHost host)).isSome = true ∧
      ipAndScope (normalizeHost host) = ipAndScope (normalizeHost other) ∧
      (hostBlockedWithLookup (fun _ _ => .failed) .defaultFalse (.ok denyingState) host 443 none
        .requireAllowlist).1 = .ok (.blocked .denied) ∧
      (hostBlockedWithLookup (fun _ _ => .failed) .defaultFalse (.ok denyingState) other 443 none
        .requireAllowlist).1 = .ok (.blocked .notAllowed) := by
  decide

end Codex.NetworkProxy
