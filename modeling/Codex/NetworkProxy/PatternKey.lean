import Codex.NetworkProxy.DomainMatcher

/-!
# Patterns with the same host

Entries of a configuration are replaced by their normalised host: `normalizeHost` of the whole
pattern, wildcard included.  The matcher takes the wildcard off first and normalises the rest.
Among patterns that the compiler accepts the two agree: patterns with the same host are
compiled to the same wildcard patterns (`candidates_congr`).
-/

namespace Codex.NetworkProxy

open Text List

/-- A host without the port that a single colon starts. -/
def cutPort (s : Str) : Str := if s.count ':' = 1 then s.takeWhile (· ≠ ':') else s

/-- The text that is looked at for an IP literal. -/
def lowered (s : Str) : Str := trimEndDots (toLowercase (cutPort s))

def normalizeLowered (t : Str) : Str := (normalizeIpLiteral t).getD t

/-- What a host is normalised to, from its lowered text. -/
def ofLowered (t : Str) : Str :=
  match bracketed t with
  | some inner => normalizeDnsHostOrIpLiteral inner
  | none => normalizeLowered t

theorem normalizeHost_eq {s : Str} (htrim : trim s = s) :
    normalizeHost s =
      match bracketed s with
      | some inner => normalizeDnsHostOrIpLiteral inner
      | none => normalizeLowered (lowered s) := by
  unfold normalizeHost
  dsimp only
  rw [htrim]
  cases bracketed s with
  | some inner => rfl
  | none =>
    unfold lowered cutPort
    split_ifs <;> rfl

/-! ## Texts that start with a star -/

theorem not_ipText_star (s : Str) : ¬ IpText ('*' :: s) := by
  intro h
  have hstar := h '*' (by simp)
  revert hstar
  decide

theorem parseIpAddr_star (s : Str) : parseIpAddr ('*' :: s) = none := by
  cases h : parseIpAddr ('*' :: s) with
  | none => rfl
  | some ip => exact absurd (ipText_of_parseIpAddr h) (not_ipText_star s)

/-- A literal, scoped or not, starts as its text does: with an address. -/
theorem exists_ip_of_normalizeIpLiteral {t literal : Str} (h : normalizeIpLiteral t = some literal) :
    ∃ ip, (parseIpAddr ip).isSome = true ∧ ip <+: t ∧ ip <+: literal ∧
      literal.count ':' ≤ t.count ':' := by
  unfold normalizeIpLiteral at h
  split_ifs at h with hparse
  · cases h
    exact ⟨t, hparse, prefix_rfl, prefix_rfl, le_rfl⟩
  · obtain ⟨delimiter, -, hscoped⟩ := exists_of_findSome?_eq_some h
    unfold scopedIpLiteral at hscoped
    split at hscoped
    · next ip scope hsplit =>
        split_ifs at hscoped with hsome
        cases hscoped
        rw [splitOnce_eq_some hsplit, List.append_assoc]
        refine ⟨ip, hsome, prefix_append _ _, prefix_append _ _, ?_⟩
        simp [count_append]
    · cases hscoped

theorem head?_of_prefix_ip {ip t : Str} (hsome : (parseIpAddr ip).isSome = true) (h : ip <+: t) :
    t.head? ≠ some '*' := by
  obtain ⟨rest, rfl⟩ := h
  cases ip with
  | nil => exact absurd hsome (by decide)
  | cons c ip =>
    intro hhead
    cases hhead
    simp [parseIpAddr_star] at hsome

/-- A text that starts with a star is kept, and no other is turned into one. -/
theorem normalizeLowered_eq_star_iff {t u : Str} :
    normalizeLowered t = '*' :: u ↔ t = '*' :: u := by
  unfold normalizeLowered
  cases h : normalizeIpLiteral t with
  | none => rfl
  | some literal =>
    obtain ⟨ip, hsome, ht, hliteral, -⟩ := exists_ip_of_normalizeIpLiteral h
    constructor
    · rintro rfl
      exact absurd rfl (head?_of_prefix_ip hsome hliteral)
    · rintro rfl
      exact absurd rfl (head?_of_prefix_ip hsome ht)

theorem count_normalizeDns_le (s : Str) :
    (normalizeDnsHostOrIpLiteral s).count ':' ≤ s.count ':' := by
  have hlower : (trimEndDots (toLowercase s)).count ':' ≤ s.count ':' := by
    calc (trimEndDots (toLowercase s)).count ':'
        ≤ (toLowercase s).count ':' := (List.rdropWhile_prefix _ _).sublist.count_le _
      _ ≤ s.count ':' := by
          rw [toLowercase, count_eq_countP, countP_map]
          refine countP_mono_left fun c _ hc => ?_
          simp only [Function.comp_apply, beq_iff_eq] at hc ⊢
          exact eq_of_toLower_eq hc (by decide)
  unfold normalizeDnsHostOrIpLiteral
  dsimp only
  cases h : normalizeIpLiteral (trimEndDots (toLowercase s)) with
  | none => exact hlower
  | some literal =>
    obtain ⟨-, -, -, -, hcount⟩ := exists_ip_of_normalizeIpLiteral h
    exact hcount.trans hlower

/-! ## Behind a wildcard -/

theorem trimEndDots_append_cons {c : Char} (hc : c ≠ '.') (u x : Str) :
    trimEndDots (u ++ c :: x) = u ++ c :: trimEndDots x := by
  have hcons : trimEndDots (c :: x) = c :: trimEndDots x := by
    have happend := rdropWhile_append (· = '.') [c] x
    rw [singleton_append] at happend
    unfold trimEndDots
    rw [happend]
    split_ifs with hnil
    · rw [hnil]
      simp [hc]
    · rfl
  have happend := rdropWhile_append (· = '.') u (c :: x)
  unfold trimEndDots at hcons ⊢
  rw [happend, hcons, if_neg (by simp)]

theorem splitOnce_of_notMem {c : Char} {u : Str} (h : c ∉ u) (x : Str) :
    splitOnce [c] (u ++ c :: x) = some (u, x) := by
  induction u with
  | nil => simp [splitOnce, stripPrefix]
  | cons d u ih =>
    obtain ⟨hne, hrest⟩ : c ≠ d ∧ c ∉ u := by simpa using h
    simp [splitOnce, stripPrefix, hne, ih hrest]

/-- A wildcard that can stand in front of a domain. -/
def IsWildcard (w : Str) : Prop := w = apexWildcard ∨ w = subdomainWildcard

theorem IsWildcard.exists_star {w : Str} (h : IsWildcard w) : ∃ rest, w = '*' :: rest ∧ rest ≠ [] := by
  rcases h with rfl | rfl
  · exact ⟨"*.".toList, rfl, by decide⟩
  · exact ⟨".".toList, rfl, by decide⟩

theorem lowered_wildcard {w : Str} (hw : IsWildcard w) {r : Str} (hne : lowered r ≠ []) :
    lowered (w ++ r) = w ++ lowered r := by
  have hcount : (w ++ r).count ':' = r.count ':' := by
    rcases hw with rfl | rfl <;> simp [apexWildcard, subdomainWildcard]
  have hcut : cutPort (w ++ r) = w ++ cutPort r := by
    unfold cutPort
    rw [hcount]
    split_ifs
    · rcases hw with rfl | rfl <;> simp [apexWildcard, subdomainWildcard]
    · rfl
  have hlower : toLowercase w = w := by
    rcases hw with rfl | rfl <;> decide
  have happend := rdropWhile_append (· = '.') w (toLowercase (cutPort r))
  have hsplit : toLowercase (w ++ cutPort r) = w ++ toLowercase (cutPort r) := by
    rw [toLowercase, map_append]
    exact congrArg (· ++ _) hlower
  unfold lowered at hne ⊢
  rw [hcut, hsplit]
  unfold trimEndDots at hne ⊢
  rw [happend, if_neg hne]

/-- The host of a pattern with a wildcard: the wildcard and the lowered rest. -/
theorem normalizeHost_wildcard {w r : Str} (hw : IsWildcard w) (htrim : trim (w ++ r) = w ++ r)
    (hne : lowered r ≠ []) : normalizeHost (w ++ r) = w ++ lowered r := by
  obtain ⟨rest, hstar, -⟩ := hw.exists_star
  rw [normalizeHost_eq htrim, lowered_wildcard hw hne, hstar]
  exact normalizeLowered_eq_star_iff.mpr rfl

theorem toLowercase_idem (s : Str) : toLowercase (toLowercase s) = toLowercase s := by
  unfold toLowercase
  rw [map_map]
  refine map_congr_left fun c _ => ?_
  apply Char.ext
  apply UInt32.toNat_inj.mp
  change c.toLower.toLower.toNat = c.toLower.toNat
  rw [toNat_toLower c.toLower]
  rw [toNat_toLower]
  split_ifs <;> omega

/-- What the compiler knows of a text in brackets. -/
theorem supportedBrackets_spec {r : Str} (h : supportedBrackets r = true) :
    ∃ inner suffix, r = '[' :: (inner ++ ']' :: suffix) ∧ '[' ∉ inner ∧ ']' ∉ inner ∧
      (normalizeDnsHostOrIpLiteral inner = ['*'] ∨
        (parseIpv6Addr ((normalizeDnsHostOrIpLiteral inner).takeWhile (· ≠ '%'))).isSome = true) := by
  unfold supportedBrackets at h
  split at h
  · next inner suffix hparts =>
      obtain ⟨rest, hrest, hsplit⟩ := Option.bind_eq_some_iff.mp hparts
      have hr := stripPrefix_eq_some_iff.mp hrest
      rw [splitOnce_eq_some hsplit] at hr
      simp only [Bool.and_eq_true, Bool.not_eq_true', Bool.or_eq_true, decide_eq_true_eq] at h
      obtain ⟨⟨⟨hinner, hip⟩, -⟩, -⟩ := h
      have hnot : ∀ c, isBracket c = true → c ∉ inner := by
        intro c hc hmem
        simpa [hc] using any_eq_false.mp hinner c hmem
      exact ⟨inner, suffix, by simpa using hr, hnot '[' (by decide), hnot ']' (by decide), hip⟩
  · cases h

theorem bracketed_cons {inner suffix : Str} (h : ']' ∉ inner) :
    bracketed ('[' :: (inner ++ ']' :: suffix)) = some inner := by
  simp [bracketed, splitOnce_of_notMem h]

/-- The text in brackets holds either no colon or two at least. -/
theorem count_colon_inner {inner : Str} (h : normalizeDnsHostOrIpLiteral inner = ['*'] ∨
      (parseIpv6Addr ((normalizeDnsHostOrIpLiteral inner).takeWhile (· ≠ '%'))).isSome = true) :
    ':' ∉ inner ∨ 2 ≤ inner.count ':' := by
  rcases h with hstar | hip
  · left
    have hlowered : trimEndDots (toLowercase inner) = ['*'] := normalizeLowered_eq_star_iff.mp hstar
    intro hmem
    have hlower : ':' ∈ toLowercase inner := mem_map.mpr ⟨':', hmem, by decide⟩
    have hsplit := rdropWhile_append_rtakeWhile (p := (· = '.')) (l := toLowercase inner)
    rw [← hsplit] at hlower
    rcases mem_append.mp hlower with hkept | hdots
    · change ':' ∈ trimEndDots (toLowercase inner) at hkept
      simp [hlowered] at hkept
    · have hdot := mem_rtakeWhile_imp hdots
      simp at hdot
  · right
    obtain ⟨ip, hsome⟩ := Option.isSome_iff_exists.mp hip
    calc 2 ≤ ((normalizeDnsHostOrIpLiteral inner).takeWhile (· ≠ '%')).count ':' :=
          (parseWith_eq_some readIpv6Addr_takes hsome).2
      _ ≤ (normalizeDnsHostOrIpLiteral inner).count ':' :=
          (takeWhile_sublist _).count_le _
      _ ≤ inner.count ':' := count_normalizeDns_le inner

/-- A port is cut off behind the brackets only. -/
theorem cutPort_bracketed {inner : Str} (h : ':' ∉ inner ∨ 2 ≤ inner.count ':') (suffix : Str) :
    ∃ rest, cutPort ('[' :: (inner ++ ']' :: suffix)) = '[' :: (inner ++ ']' :: rest) := by
  unfold cutPort
  split_ifs with hone
  · have hnot : ':' ∉ inner := by
      refine h.resolve_right fun htwo => ?_
      simp [count_append] at hone
      omega
    refine ⟨suffix.takeWhile (· ≠ ':'), ?_⟩
    have htake : (inner ++ ']' :: suffix).takeWhile (· ≠ ':') =
        inner ++ (']' :: suffix).takeWhile (· ≠ ':') := by
      rw [takeWhile_append_of_pos]
      intro c hc
      simpa using fun heq : c = ':' => hnot (heq ▸ hc)
    rw [takeWhile_cons_of_pos (by decide), htake, takeWhile_cons_of_pos (by decide)]
  · exact ⟨suffix, rfl⟩

section Wildcard

variable {pattern w r : Str}

theorem lowered_prefix_toLowercase (s : Str) : lowered s <+: toLowercase s := by
  have hcut : cutPort s <+: s := by
    unfold cutPort
    split_ifs
    · exact List.takeWhile_prefix _
    · exact prefix_rfl
  exact (List.rdropWhile_prefix _ _).trans (hcut.map _)

/-- A text in front that has no letters was there before. -/
theorem prefix_of_prefix_lowered {s t : Str} (h : t <+: lowered s)
    (ht : ∀ c ∈ t, c.toNat < 97 ∨ 122 < c.toNat) : t <+: s := by
  obtain ⟨rest, hrest⟩ := h.trans (lowered_prefix_toLowercase s)
  obtain ⟨front, back, rfl, hfront, -⟩ := map_eq_append_iff.mp hrest.symm
  refine ⟨back, congrArg (· ++ back) ?_⟩
  clear h hrest
  induction front generalizing t with
  | nil => exact hfront.symm
  | cons c front ih =>
    cases hfront
    have hc := eq_of_toLower_eq rfl (ht c.toLower (by simp))
    rw [map_cons, ← hc, ih _ rfl]
    exact fun d hd => ht d (by simp [hd])

/-- Behind a wildcard the host is read off the lowered text. -/
theorem Supported.normalizeHost_rest (h : Supported pattern) (hw : IsWildcard w)
    (htrim : trim pattern = w ++ r) :
    lowered r ≠ [] ∧ normalizeHost r = ofLowered (lowered r) := by
  have hrest : (splitWildcard (trim pattern)).2 = r := by
    rw [htrim]
    rcases hw with rfl | rfl <;> simp
  have hself : trim r = r := trim_eq_self fun c hc => h.whitespace c (by simp [htrim, hc])
  have hbrackets := h.brackets
  rw [hrest] at hbrackets
  have hnil := h.normalizeHost_ne_nil htrim hw
  cases hb : bracketed r with
  | none =>
    have hnormal : normalizeHost r = normalizeLowered (lowered r) := by
      rw [normalizeHost_eq hself, hb]
    have hnone : bracketed (lowered r) = none := by
      by_contra hsome
      -- a bracket in front is one of a supported literal
      have hhead : ['['] <+: lowered r := by
        generalize lowered r = t at hsome
        unfold bracketed at hsome
        split at hsome
        · simp
        · simp at hsome
      obtain ⟨tail, htail⟩ := prefix_of_prefix_lowered hhead (by simp)
      have hany : r.any isBracket = true := by
        rw [← htail]
        simp [isBracket]
      obtain ⟨inner, suffix, rfl, -, hnot, -⟩ := supportedBrackets_spec (hbrackets hany)
      simp [bracketed_cons hnot] at hb
    refine ⟨fun hempty => hnil ?_, ?_⟩
    · rw [hnormal, hempty]
      decide
    · rw [hnormal, ofLowered, hnone]
  | some inner' =>
    have hany : r.any isBracket = true := by
      unfold bracketed at hb
      split at hb
      · simp [isBracket]
      · cases hb
    obtain ⟨inner, suffix, rfl, -, hnot, hip⟩ := supportedBrackets_spec (hbrackets hany)
    obtain ⟨rest, hcut⟩ := cutPort_bracketed (count_colon_inner hip) suffix
    have hlowered : lowered ('[' :: (inner ++ ']' :: suffix)) =
        '[' :: (toLowercase inner ++ ']' :: trimEndDots (toLowercase rest)) := by
      have hmap : toLowercase ('[' :: (inner ++ ']' :: rest)) =
          ('[' :: toLowercase inner) ++ ']' :: toLowercase rest := by
        simp [toLowercase]
      rw [lowered, hcut, hmap, trimEndDots_append_cons (by decide)]
      rfl
    have hnotLower : ']' ∉ toLowercase inner := by
      intro hmem
      obtain ⟨c, hc, hlower⟩ := mem_map.mp hmem
      cases eq_of_toLower_eq hlower (by decide)
      exact hnot hc
    refine ⟨by simp [hlowered], ?_⟩
    rw [normalizeHost_eq hself, bracketed_cons hnot, hlowered, ofLowered, bracketed_cons hnotLower]
    simp only [normalizeDnsHostOrIpLiteral, toLowercase_idem]

/-- A pattern without a wildcard in front is not normalised to one with a wildcard. -/
theorem Supported.normalizeHost_ne_wildcard (h : Supported pattern)
    (hsplit : splitWildcard (trim pattern) = ([], trim pattern)) (hw : IsWildcard w) (t : Str) :
    normalizeHost (trim pattern) ≠ w ++ t := by
  intro heq
  obtain ⟨rest, hstar, hrest⟩ := hw.exists_star
  rw [normalizeHost_eq (trim_trim pattern)] at heq
  have hbrackets := h.brackets
  rw [hsplit] at hbrackets
  cases hb : bracketed (trim pattern) with
  | some inner' =>
    have hany : (trim pattern).any isBracket = true := by
      generalize trim pattern = s at hb
      unfold bracketed at hb
      split at hb
      · simp [isBracket]
      · cases hb
    obtain ⟨inner, suffix, hform, -, hnot, hip⟩ := supportedBrackets_spec (hbrackets hany)
    replace hform : trim pattern = _ := hform
    rw [hform, bracketed_cons hnot] at heq
    dsimp only at heq
    rcases hip with hone | hipv6
    · rw [hone, hstar] at heq
      cases rest with
      | nil => exact hrest rfl
      | cons c rest => simp at heq
    · rw [heq, hstar] at hipv6
      obtain ⟨ip, hsome⟩ := Option.isSome_iff_exists.mp hipv6
      exact not_ipText_star _ (parseWith_eq_some readIpv6Addr_takes hsome).1.chars
  | none =>
    rw [hb, hstar] at heq
    have hlowered : lowered (trim pattern) = w ++ t := by
      rw [hstar]
      exact normalizeLowered_eq_star_iff.mp heq
    have hprefix : w <+: lowered (trim pattern) := ⟨t, hlowered.symm⟩
    obtain ⟨domain, hdomain⟩ := prefix_of_prefix_lowered hprefix (by
      rcases hw with rfl | rfl <;> simp [apexWildcard, subdomainWildcard])
    rw [← hdomain] at hsplit
    rcases hw with rfl | rfl
    · rw [splitWildcard_apex] at hsplit
      cases congrArg Prod.fst hsplit
    · rw [splitWildcard_subdomain] at hsplit
      cases congrArg Prod.fst hsplit

end Wildcard

/-- Patterns with the same host are compiled to the same wildcard patterns. -/
theorem candidates_congr {p q : Str} (hp : Supported p) (hq : Supported q)
    (h : normalizeHost p = normalizeHost q) : candidates p = candidates q := by
  have hhost : ∀ s, normalizeHost (trim s) = normalizeHost s := fun s => by
    simp only [normalizeHost, trim_trim]
  rw [← hhost p, ← hhost q] at h
  -- a pattern has a wildcard in front and a rest that its host determines, or neither
  have hcases : ∀ {s : Str}, Supported s →
      (∃ w r, IsWildcard w ∧ trim s = w ++ r ∧ normalizeHost (trim s) = w ++ lowered r ∧
        normalizeHost r = ofLowered (lowered r)) ∨
      splitWildcard (trim s) = ([], trim s) := by
    intro s hs
    have hwild : ∀ w r, IsWildcard w → trim s = w ++ r →
        ∃ w r, IsWildcard w ∧ trim s = w ++ r ∧ normalizeHost (trim s) = w ++ lowered r ∧
          normalizeHost r = ofLowered (lowered r) := by
      intro w r hw htrim
      obtain ⟨hne, hrest⟩ := hs.normalizeHost_rest hw htrim
      refine ⟨w, r, hw, htrim, ?_, hrest⟩
      rw [htrim]
      exact normalizeHost_wildcard hw (htrim ▸ trim_trim s) hne
    obtain ⟨r, htrim, -⟩ | ⟨r, htrim, -⟩ | ⟨hsplit, -, -⟩ := splitWildcard_cases (trim s)
    · exact .inl (hwild _ r (.inl rfl) htrim)
    · exact .inl (hwild _ r (.inr rfl) htrim)
    · exact .inr hsplit
  obtain ⟨w, r, hw, htrim, hkey, hrest⟩ | hplain := hcases hp
  · obtain ⟨w', r', hw', htrim', hkey', hrest'⟩ | hplain' := hcases hq
    · rw [hkey'] at h
      have hsame : w = w' ∧ lowered r = lowered r' := by
        rcases hw with rfl | rfl <;> rcases hw' with rfl | rfl <;>
          simp_all [apexWildcard, subdomainWildcard]
      obtain ⟨rfl, hlowered⟩ := hsame
      rw [hp.expand_wildcard htrim hw, hq.expand_wildcard htrim' hw, hrest, hrest', hlowered]
    · exact absurd (h.symm.trans hkey) (hq.normalizeHost_ne_wildcard hplain' hw _)
  · obtain ⟨w', r', hw', -, hkey', -⟩ | hplain' := hcases hq
    · exact absurd (h.trans hkey') (hp.normalizeHost_ne_wildcard hplain hw' _)
    · rw [candidates_plain hplain, candidates_plain hplain', h]

end Codex.NetworkProxy
