import Codex.Lib.Bytes

/-!
# Paths that name one resource

A hook authorises a request by its path, before the upstream server reads that.  It takes a
path only if the server cannot see another resource in it: whether it decodes the path once or
twice, as a whole or segment by segment, and whether or not it removes dot segments.

A path is given by its bytes; in UTF-8 a slash is never part of another character.

`isSafeForAuthorization_spec` is about the segments one by one: a segment that has passed the scan
is a plain name (`Scanned`), which decoding and the removal of dot segments leave alone.
-/

namespace Codex.NetworkProxy

open Bytes Text List

/-- The loop over a segment, with the dots counted so far. -/
def scanSegment (decodedDots : ℕ) (hasNonDot : Bool) : List ℕ → Bool
  | [] => hasNonDot || !(decodedDots = 1 || decodedDots = 2)
  | byte :: rest =>
    if byte = 46 then scanSegment (decodedDots + 1) hasNonDot rest
    else if byte = 92 then false
    else if byte = 37 then
      match rest with
      | high :: low :: rest =>
        match hexValue high, hexValue low with
        | some high, some low =>
          let decoded := 16 * high + low
          if decoded = 37 ∨ decoded = 47 ∨ decoded = 92 then false
          else if decoded = 46 then scanSegment (decodedDots + 1) hasNonDot rest
          else scanSegment decodedDots true rest
        | _, _ => false
      | _ => false
    else scanSegment decodedDots true rest

def isSafeSegmentForAuthorization (segment : List ℕ) : Bool := scanSegment 0 false segment

def isSafeForAuthorization (path : List ℕ) : Bool :=
  (path.splitOn 47).all isSafeSegmentForAuthorization

/-- What a server does that normalises a path. -/
def removeDotSegments (segments : List (List ℕ)) : List (List ℕ) :=
  segments.foldl (fun kept segment =>
    if segment = [46] then kept
    else if segment = [46, 46] then kept.dropLast
    else kept ++ [segment]) []

/-! ## One segment -/

/-- What the loop has checked: no byte means something else when it is decoded again or as part
of the path, and there is something other than one or two dots. -/
structure Scanned (dots : ℕ) (nonDot : Bool) (bytes : List ℕ) : Prop where
  plain : ∀ b ∈ percentDecode bytes, b ≠ 37 ∧ b ≠ 92 ∧ (b = 47 → 47 ∈ bytes)
  name : nonDot = true ∨ (∃ b ∈ percentDecode bytes, b ≠ 46) ∨
    dots + (percentDecode bytes).length ≠ 1 ∧ dots + (percentDecode bytes).length ≠ 2

/-- One round of the loop reads one byte that is decoded. -/
theorem Scanned.cons {dots dots' b : ℕ} {nonDot nonDot' : Bool} {bytes rest : List ℕ}
    (h : Scanned dots' nonDot' rest) (hdecode : percentDecode bytes = b :: percentDecode rest)
    (hslash : 47 ∈ rest → 47 ∈ bytes) (hb : b ≠ 37 ∧ b ≠ 92 ∧ (b = 47 → 47 ∈ bytes))
    (hdot : b = 46 → dots' = dots + 1 ∧ nonDot' = nonDot) : Scanned dots nonDot bytes := by
  refine ⟨?_, ?_⟩
  · rw [hdecode, forall_mem_cons]
    refine ⟨hb, fun b' hb' => ?_⟩
    obtain ⟨hpercent, hbackslash, hfrom⟩ := h.plain b' hb'
    exact ⟨hpercent, hbackslash, fun heq => hslash (hfrom heq)⟩
  · rw [hdecode]
    by_cases heq : b = 46
    · obtain ⟨rfl, rfl⟩ := hdot heq
      rcases h.name with hnon | ⟨b', hb', hne⟩ | hcount
      · exact .inl hnon
      · exact .inr (.inl ⟨b', mem_cons_of_mem _ hb', hne⟩)
      · rw [length_cons]
        exact .inr (.inr (by omega))
    · exact .inr (.inl ⟨b, mem_cons_self, heq⟩)

theorem scanned_of_scanSegment {dots : ℕ} {nonDot : Bool} {bytes : List ℕ}
    (h : scanSegment dots nonDot bytes = true) : Scanned dots nonDot bytes := by
  fun_induction scanSegment dots nonDot bytes with
  | case1 dots nonDot =>
    refine ⟨by simp [percentDecode], ?_⟩
    cases nonDot <;> simp_all [percentDecode]
  | case2 dots nonDot rest ih =>
    exact (ih h).cons (percentDecode_cons_of_ne (by decide) rest) (mem_cons_of_mem _)
      (by simp) fun _ => ⟨rfl, rfl⟩
  | case5 dots nonDot high low rest x y hlow hhigh decoded hbad hdot _ _ ih =>
    refine (ih h).cons (percentDecode_sequence hhigh hlow rest) (by simp_all) ?_ fun _ => ⟨rfl, rfl⟩
    exact ⟨fun heq => hbad (.inl heq), fun heq => hbad (.inr (.inr heq)),
      fun heq => absurd (.inr (.inl heq)) hbad⟩
  | case6 dots nonDot high low rest x y hlow hhigh decoded hbad hdot _ _ ih =>
    refine (ih h).cons (percentDecode_sequence hhigh hlow rest) (by simp_all) ?_
      fun heq => absurd heq hdot
    exact ⟨fun heq => hbad (.inl heq), fun heq => hbad (.inr (.inr heq)),
      fun heq => absurd (.inr (.inl heq)) hbad⟩
  | case9 dots nonDot byte rest hdot hbackslash hpercent ih =>
    exact (ih h).cons (percentDecode_cons_of_ne hpercent rest) (mem_cons_of_mem _)
      ⟨hpercent, hbackslash, fun heq => heq ▸ mem_cons_self⟩ fun heq => absurd heq hdot
  | _ => cases h

/-! ## The whole path -/

theorem removeDotSegments_eq_self {segments : List (List ℕ)}
    (h : ∀ segment ∈ segments, segment ≠ [46] ∧ segment ≠ [46, 46]) :
    removeDotSegments segments = segments := by
  unfold removeDotSegments
  induction segments using List.reverseRecOn with
  | nil => rfl
  | append_singleton segments segment ih =>
    obtain ⟨hbefore, hlast⟩ := forall_mem_append.mp h
    obtain ⟨hdot, hdots⟩ := hlast segment (by simp)
    rw [foldl_append, ih hbefore]
    simp [hdot, hdots]

/-- A path that is taken has the same segments whether it is split first or decoded first, can be
decoded again, and has no dot segments. -/
theorem isSafeForAuthorization_spec (path : List ℕ) (h : isSafeForAuthorization path = true) :
    (percentDecode path).splitOn 47 = (path.splitOn 47).map percentDecode ∧
      92 ∉ percentDecode path ∧ 37 ∉ percentDecode path ∧
      percentDecode (percentDecode path) = percentDecode path ∧
      (∀ segment ∈ (percentDecode path).splitOn 47, segment ≠ [46] ∧ segment ≠ [46, 46]) ∧
      removeDotSegments ((percentDecode path).splitOn 47) = (percentDecode path).splitOn 47 := by
  have hscanned : ∀ segment ∈ path.splitOn 47, Scanned 0 false segment :=
    fun segment hsegment => scanned_of_scanSegment (all_eq_true.mp h segment hsegment)
  have hjoin : ∀ bytes : List ℕ, [47].intercalate (bytes.splitOn 47) = bytes :=
    fun _ => intercalate_splitOn 47
  have hsplit : (percentDecode path).splitOn 47 = (path.splitOn 47).map percentDecode := by
    conv_lhs => rw [← hjoin path, percentDecode_intercalate]
    refine splitOn_intercalate 47 ?_ (by simp)
    intro decoded hdecoded
    obtain ⟨segment, hsegment, rfl⟩ := mem_map.mp hdecoded
    exact fun hslash => notMem_of_mem_splitOn hsegment
      (((hscanned segment hsegment).plain 47 hslash).2.2 rfl)
  have hplain : ∀ b ∈ percentDecode path, b ≠ 37 ∧ b ≠ 92 := by
    intro b hb
    rw [← hjoin (percentDecode path), hsplit] at hb
    rcases mem_of_mem_intercalate hb with rfl | ⟨decoded, hdecoded, hmem⟩
    · decide
    · obtain ⟨segment, hsegment, rfl⟩ := mem_map.mp hdecoded
      obtain ⟨hpercent, hbackslash, -⟩ := (hscanned segment hsegment).plain b hmem
      exact ⟨hpercent, hbackslash⟩
  have hdots : ∀ segment ∈ (percentDecode path).splitOn 47, segment ≠ [46] ∧ segment ≠ [46, 46] := by
    rw [hsplit]
    intro decoded hdecoded
    obtain ⟨segment, hsegment, rfl⟩ := mem_map.mp hdecoded
    have hname := (hscanned segment hsegment).name
    constructor <;> intro heq <;> simp [heq] at hname
  have hpercent : 37 ∉ percentDecode path := fun hmem => (hplain 37 hmem).1 rfl
  exact ⟨hsplit, fun hmem => (hplain 92 hmem).2 rfl, hpercent, percentDecode_eq_self hpercent, hdots,
    removeDotSegments_eq_self hdots⟩

/-- The path `/%2egit` is taken. -/
theorem isSafeForAuthorization_spec_hidden_file :
    let path := [47, 37, 50, 101, 103, 105, 116]
    isSafeForAuthorization path = true ∧
      (percentDecode path).splitOn 47 = (path.splitOn 47).map percentDecode :=
  ⟨by decide, (isSafeForAuthorization_spec _ (by decide)).1⟩

end Codex.NetworkProxy
