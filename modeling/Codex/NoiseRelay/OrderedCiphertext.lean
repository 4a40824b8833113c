import Codex.Lib.Assoc
import Mathlib.Order.Interval.Finset.Nat

/-!
# Records in order

The records of a stream are numbered, and the relay may drop, repeat and reorder them.  A record
that is not the next one is kept until the gap before it is closed; how far it may be ahead and
how many bytes may be kept is bounded.

Whatever is pushed, the kept records lie within the window behind the next number and their bytes
are counted exactly, so that the count never underflows (`InWindow`).

One push keeps this (`inWindow_push`), and `pushes_stay_bounded` is the induction over the pushes.
-/

namespace Codex.NoiseRelay

open Assoc

abbrev Bytes := List UInt8

def maxReorderDistance : ℕ := 64

def maxPendingBytes : ℕ := 1024 * 1024

inductive RelayError where
  | exceedsReorderWindow
  | pendingBufferFull
  | sequenceExhausted
  /-- A subtraction of the pending bytes went below zero. -/
  | underflow
  | decryptionFailed
  | messageTooLong
  | recordTooLong
  | invalidMessageLength
  | reassemblyBufferFull
  | decodeFailed
  | queueFullOrClosed
  deriving DecidableEq

structure OrderedCiphertextFrames where
  nextSeq : ℕ
  pending : AList fun _ : ℕ => Bytes
  pendingBytes : ℕ

namespace OrderedCiphertextFrames

def new : OrderedCiphertextFrames := ⟨0, ∅, 0⟩

/-- The next number is a `u32`. -/
def advance (frames : OrderedCiphertextFrames) : Except RelayError OrderedCiphertextFrames :=
  if frames.nextSeq + 1 < 2 ^ 32 then .ok { frames with nextSeq := frames.nextSeq + 1 }
  else .error .sequenceExhausted

/-- The loop of `push`: what is kept and follows now is released. -/
def release (frames : OrderedCiphertextFrames) (ready : List Bytes) :
    OrderedCiphertextFrames × Except RelayError (List Bytes) :=
  match h : frames.pending.lookup frames.nextSeq with
  | none => (frames, .ok ready)
  | some payload =>
    let removed := { frames with pending := frames.pending.erase frames.nextSeq }
    if frames.pendingBytes < payload.length then (removed, .error .underflow)
    else
      let counted := { removed with pendingBytes := frames.pendingBytes - payload.length }
      if counted.nextSeq + 1 < 2 ^ 32 then
        release { counted with nextSeq := counted.nextSeq + 1 } (ready ++ [payload])
      else (counted, .error .sequenceExhausted)
termination_by frames.pending.entries.length
decreasing_by
  have hmem : frames.nextSeq ∈ frames.pending := by
    rw [← AList.lookup_isSome, h]
    rfl
  have hpos : 0 < frames.pending.entries.length := by
    rw [length_entries]
    exact List.length_pos_of_mem (AList.mem_keys.mp hmem)
  simp only [length_erase_of_mem hmem]
  omega

/-- Returns the records that are in order now; an old or repeated one changes nothing. -/
def push (frames : OrderedCiphertextFrames) (seq : ℕ) (payload : Bytes) :
    OrderedCiphertextFrames × Except RelayError (List Bytes) :=
  if seq < frames.nextSeq ∨ seq ∈ frames.pending then (frames, .ok [])
  else if frames.nextSeq < seq then
    if maxReorderDistance < seq - frames.nextSeq then (frames, .error .exceedsReorderWindow)
    else if maxPendingBytes < frames.pendingBytes + payload.length then
      (frames, .error .pendingBufferFull)
    else
      ({ frames with
          pending := frames.pending.insert seq payload
          pendingBytes := frames.pendingBytes + payload.length }, .ok [])
  else
    match frames.advance with
    | .ok frames => frames.release [payload]
    | .error error => (frames, .error error)

/-! ## The window -/

/-- The bytes of the records that are kept. -/
def keptBytes (frames : OrderedCiphertextFrames) : ℕ :=
  Assoc.total (fun record => record.2.length) frames.pending

/-- The kept records are counted and lie behind the next number; `gap` is how far behind it at
least. -/
structure Kept (gap : ℕ) (frames : OrderedCiphertextFrames) : Prop where
  counted : frames.pendingBytes = frames.keptBytes
  window : ∀ seq ∈ frames.pending,
    frames.nextSeq + gap ≤ seq ∧ seq ≤ frames.nextSeq + maxReorderDistance

/-- What holds between two pushes: the next record is not among the kept ones. -/
abbrev InWindow (frames : OrderedCiphertextFrames) : Prop := Kept 1 frames

section Window

variable {frames : OrderedCiphertextFrames}

theorem InWindow.new : InWindow new := ⟨rfl, fun seq hseq => absurd hseq (AList.notMem_empty seq)⟩

/-- At most as many records are kept as the window is long. -/
theorem InWindow.length_le (h : InWindow frames) :
    frames.pending.entries.length ≤ maxReorderDistance := by
  have hnodup : frames.pending.keys.Nodup := frames.pending.keys_nodup
  have hsubset : frames.pending.keys.toFinset ⊆
      Finset.Icc (frames.nextSeq + 1) (frames.nextSeq + maxReorderDistance) := by
    intro seq hseq
    exact Finset.mem_Icc.mpr (h.window seq (AList.mem_keys.mpr (List.mem_toFinset.mp hseq)))
  calc frames.pending.entries.length = frames.pending.keys.toFinset.card := by
        rw [length_entries, List.toFinset_card_of_nodup hnodup]
    _ ≤ (Finset.Icc (frames.nextSeq + 1) (frames.nextSeq + maxReorderDistance)).card :=
        Finset.card_le_card hsubset
    _ = maxReorderDistance := by
        rw [Nat.card_Icc]
        omega

theorem Kept.length_le_of_lookup (h : Kept 0 frames) {payload : Bytes}
    (hnext : frames.pending.lookup frames.nextSeq = some payload) :
    payload.length ≤ frames.pendingBytes := by
  rw [h.counted, keptBytes, total_erase_of_lookup _ hnext]
  exact Nat.le_add_right _ _

/-- Without the next record, the others are counted and lie behind it. -/
theorem Kept.erase (h : Kept 0 frames) {payload : Bytes}
    (hnext : frames.pending.lookup frames.nextSeq = some payload) :
    InWindow { frames with
      pending := frames.pending.erase frames.nextSeq
      pendingBytes := frames.pendingBytes - payload.length } := by
  refine ⟨?_, fun seq hseq => ?_⟩
  · have htotal := h.counted
    rw [keptBytes, total_erase_of_lookup _ hnext] at htotal
    simp only [keptBytes, htotal]
    omega
  · obtain ⟨hne, hmem⟩ := AList.mem_erase.mp hseq
    have := h.window seq hmem
    dsimp only at hne ⊢
    omega

theorem Kept.succ (h : InWindow frames) : Kept 0 { frames with nextSeq := frames.nextSeq + 1 } := by
  refine ⟨h.counted, fun seq hseq => ?_⟩
  have := h.window seq hseq
  dsimp only
  omega

theorem Kept.inWindow (h : Kept 0 frames) (hnone : frames.pending.lookup frames.nextSeq = none) :
    InWindow frames := by
  refine ⟨h.counted, fun seq hseq => ?_⟩
  have hne : seq ≠ frames.nextSeq := by
    rintro rfl
    exact AList.lookup_eq_none.mp hnone hseq
  have := h.window seq hseq
  omega

theorem inWindow_release (ready : List Bytes) (h : Kept 0 frames) :
    InWindow (frames.release ready).1 ∧ (frames.release ready).2 ≠ .error .underflow := by
  fun_induction release frames ready with
  | case1 frames ready hnone => exact ⟨h.inWindow hnone, by simp⟩
  | case2 frames ready payload hnext removed hless =>
    exact absurd (h.length_le_of_lookup hnext) (by omega)
  | case3 frames ready payload hnext removed hle counted hroom ih => exact ih (h.erase hnext).succ
  | case4 frames ready payload hnext removed hle counted hfull => exact ⟨h.erase hnext, by simp⟩

/-- A push keeps the window, whatever is pushed and whether it fails or not. -/
theorem inWindow_push (seq : ℕ) (payload : Bytes) (h : InWindow frames) :
    InWindow (frames.push seq payload).1 ∧ (frames.push seq payload).2 ≠ .error .underflow := by
  unfold push
  split_ifs with hknown hahead hfar hmany
  · exact ⟨h, by simp⟩
  · exact ⟨h, by simp⟩
  · exact ⟨h, by simp⟩
  · refine ⟨⟨?_, fun other hother => ?_⟩, by simp⟩
    · have hnew : seq ∉ frames.pending := fun hmem => hknown (.inr hmem)
      rw [keptBytes, total_insert_of_notMem _ hnew]
      dsimp only
      rw [h.counted, keptBytes]
      omega
    · rcases (AList.mem_insert _).mp hother with rfl | hmem
      · dsimp only
        omega
      · exact h.window other hmem
  · unfold advance
    split_ifs with hroom
    · exact inWindow_release [payload] h.succ
    · exact ⟨h, by simp⟩

theorem pendingBytes_release_le (ready : List Bytes) :
    (frames.release ready).1.pendingBytes ≤ frames.pendingBytes := by
  fun_induction release frames ready with
  | case1 | case2 => exact le_rfl
  | case3 frames ready payload hnext removed hle counted hroom ih => exact ih.trans (Nat.sub_le ..)
  | case4 => exact Nat.sub_le ..

/-- Whatever is pushed, the kept records and their bytes stay within the limits, the bytes are
counted exactly, and the count does not underflow. -/
theorem pushes_stay_bounded (records : List (ℕ × Bytes)) :
    let frames := records.foldl (fun frames record => (frames.push record.1 record.2).1) new
    frames.pending.entries.length ≤ maxReorderDistance ∧ frames.pendingBytes = frames.keptBytes ∧
      frames.pendingBytes ≤ maxPendingBytes ∧
      ∀ seq payload, (frames.push seq payload).2 ≠ .error .underflow := by
  intro frames
  obtain ⟨hwindow, hbytes⟩ : InWindow frames ∧ frames.pendingBytes ≤ maxPendingBytes := by
    refine List.foldlRecOn (motive := fun frames => InWindow frames ∧
      frames.pendingBytes ≤ maxPendingBytes) _ _ ⟨.new, Nat.zero_le _⟩ fun frames h record _ => ?_
    refine ⟨(inWindow_push record.1 record.2 h.1).1, ?_⟩
    unfold push advance
    split_ifs <;> grind [pendingBytes_release_le]
  exact ⟨hwindow.length_le, hwindow.counted, hbytes, fun seq payload =>
    (inWindow_push seq payload hwindow).2⟩

end Window

/-! ## The records of one stream -/

/-- The first number that has not arrived. -/
def expected (arrived : Finset ℕ) : ℕ := Nat.find (Infinite.exists_notMem_finset arrived)

section Arrivals

variable {arrived : Finset ℕ} {seq : ℕ}

theorem expected_notMem (arrived : Finset ℕ) : expected arrived ∉ arrived :=
  Nat.find_spec (Infinite.exists_notMem_finset arrived)

theorem mem_of_lt_expected (h : seq < expected arrived) : seq ∈ arrived :=
  not_not.mp (Nat.find_min (Infinite.exists_notMem_finset arrived) h)

theorem expected_le {n : ℕ} (h : ∀ seq ∈ arrived, seq < n) : expected arrived ≤ n := by
  by_contra hlt
  exact lt_irrefl n (h n (mem_of_lt_expected (Nat.lt_of_not_le hlt)))

theorem expected_eq (hbefore : ∀ k < seq, k ∈ arrived) (hseq : seq ∉ arrived) :
    expected arrived = seq := by
  rcases Nat.lt_trichotomy (expected arrived) seq with hlt | heq | hgt
  · exact absurd (hbefore _ hlt) (expected_notMem arrived)
  · exact heq
  · exact absurd (mem_of_lt_expected hgt) hseq

theorem expected_mono {more : Finset ℕ} (h : arrived ⊆ more) : expected arrived ≤ expected more := by
  by_contra hlt
  exact expected_notMem more (h (mem_of_lt_expected (Nat.lt_of_not_le hlt)))

theorem expected_insert_of_ne (hseq : seq ≠ expected arrived) :
    expected (insert seq arrived) = expected arrived := by
  refine expected_eq (fun k hk => Finset.mem_insert_of_mem (mem_of_lt_expected hk)) ?_
  rw [Finset.mem_insert, not_or]
  exact ⟨hseq.symm, expected_notMem arrived⟩

theorem expected_lt_expected_insert : expected arrived < expected (insert (expected arrived) arrived) := by
  by_contra hle
  have hmem : expected (insert (expected arrived) arrived) ∈ insert (expected arrived) arrived := by
    rcases Nat.lt_or_eq_of_le (Nat.le_of_not_lt hle) with hlt | heq
    · exact Finset.mem_insert_of_mem (mem_of_lt_expected hlt)
    · rw [heq]
      exact Finset.mem_insert_self _ _
  exact expected_notMem _ hmem

/-- All numbers before the next one have arrived, and what has arrived from there on is kept. -/
structure Holds (cipher : ℕ → Bytes) (arrived : Finset ℕ) (frames : OrderedCiphertextFrames) :
    Prop where
  before : ∀ seq < frames.nextSeq, seq ∈ arrived
  kept : ∀ seq, frames.pending.lookup seq =
    if seq ∈ arrived ∧ frames.nextSeq ≤ seq then some (cipher seq) else none

variable {cipher : ℕ → Bytes} {frames : OrderedCiphertextFrames}

/-- The next record, taken out of the kept ones. -/
theorem Holds.take (h : Holds cipher arrived frames) {payload : Bytes}
    (hnext : frames.pending.lookup frames.nextSeq = some payload) (bytes : ℕ) :
    payload = cipher frames.nextSeq ∧
      Holds cipher arrived ⟨frames.nextSeq + 1, frames.pending.erase frames.nextSeq, bytes⟩ := by
  rw [h.kept] at hnext
  split_ifs at hnext with hmem
  refine ⟨(Option.some.inj hnext).symm, fun seq hseq => ?_, fun seq => ?_⟩
  · rcases Nat.lt_succ_iff_lt_or_eq.mp hseq with hlt | rfl
    · exact h.before seq hlt
    · exact hmem.1
  · dsimp only
    by_cases hseq : seq = frames.nextSeq
    · rw [hseq, AList.lookup_erase, if_neg (by omega)]
    · have hiff : seq ∈ arrived ∧ frames.nextSeq ≤ seq ↔
          seq ∈ arrived ∧ frames.nextSeq + 1 ≤ seq := by
        constructor <;> rintro ⟨harrived, hle⟩ <;> exact ⟨harrived, by omega⟩
      rw [AList.lookup_erase_ne hseq, h.kept]
      simp only [hiff]

theorem Holds.nextSeq_le (h : Holds cipher arrived frames) : frames.nextSeq ≤ expected arrived := by
  by_contra hlt
  exact expected_notMem arrived (h.before _ (Nat.lt_of_not_le hlt))

/-- The kept records are those that have arrived behind the first that is missing. -/
theorem Holds.keptBytes_eq (h : Holds cipher arrived frames)
    (hnext : frames.nextSeq = expected arrived) :
    frames.keptBytes = ∑ seq ∈ arrived with expected arrived < seq, (cipher seq).length := by
  have hkeys : frames.pending.keys.toFinset = arrived.filter (expected arrived < ·) := by
    ext seq
    rw [List.mem_toFinset, ← AList.mem_keys, ← AList.lookup_isSome, h.kept, Finset.mem_filter, hnext]
    have hne : seq ∈ arrived → seq ≠ expected arrived := by
      rintro hmem rfl
      exact expected_notMem arrived hmem
    split_ifs with hboth
    · have := hne hboth.1
      simp only [Option.isSome_some, true_iff]
      exact ⟨hboth.1, by omega⟩
    · simp only [Option.isSome_none, Bool.false_eq_true, false_iff]
      rintro ⟨hmem, hlt⟩
      exact hboth ⟨hmem, hlt.le⟩
  rw [← hkeys]
  refine total_eq_sum_keys fun record hrecord => ?_
  obtain ⟨seq, payload⟩ := record
  have hlookup : frames.pending.lookup seq = some payload := AList.mem_lookup_iff.mpr hrecord
  rw [h.kept] at hlookup
  split_ifs at hlookup
  cases hlookup
  rfl

/-- The loop releases the records up to the first one that is missing. -/
theorem holds_release (ready : List Bytes) (hkept : Kept 0 frames)
    (hholds : Holds cipher arrived frames) (hbound : expected arrived < 2 ^ 32) :
    (frames.release ready).1.nextSeq = expected arrived ∧
      Holds cipher arrived (frames.release ready).1 ∧
      (frames.release ready).2 = .ok (ready ++
        (List.range' frames.nextSeq (expected arrived - frames.nextSeq)).map cipher) := by
  fun_induction release frames ready with
  | case1 frames ready hnone =>
    have hmissing : frames.nextSeq ∉ arrived := by
      intro hmem
      rw [hholds.kept, if_pos ⟨hmem, le_rfl⟩] at hnone
      cases hnone
    rw [expected_eq hholds.before hmissing]
    exact ⟨rfl, hholds, by simp⟩
  | case2 frames ready payload hnext removed hless =>
    exact absurd (hkept.length_le_of_lookup hnext) (by omega)
  | case3 frames ready payload hnext removed hle counted hroom ih =>
    obtain ⟨rfl, htaken⟩ := hholds.take hnext (frames.pendingBytes - payload.length)
    obtain ⟨hnextSeq, hafter, hreleased⟩ := ih (hkept.erase hnext).succ htaken
    refine ⟨hnextSeq, hafter, ?_⟩
    have hle := htaken.nextSeq_le
    have hlength : expected arrived - frames.nextSeq =
        (expected arrived - (frames.nextSeq + 1)) + 1 := by
      dsimp only at hle
      omega
    rw [hreleased, hlength, List.range'_succ, List.map_cons, List.append_assoc,
      List.singleton_append]
  | case4 frames ready payload hnext removed hle counted hfull =>
    have hle := (hholds.take hnext 0).2.nextSeq_le
    exact absurd (Nat.lt_of_le_of_lt hle hbound) hfull

/-- A push of a record of the stream, within the window and the bytes: what has become contiguous
is released. -/
theorem holds_push (hkept : InWindow frames) (hholds : Holds cipher arrived frames)
    (hnext : frames.nextSeq = expected arrived)
    (hwindow : seq ≤ expected arrived + maxReorderDistance)
    (hbytes : expected arrived < seq → seq ∉ arrived →
      frames.pendingBytes + (cipher seq).length ≤ maxPendingBytes)
    (hbound : expected (insert seq arrived) < 2 ^ 32) :
    (frames.push seq (cipher seq)).1.nextSeq = expected (insert seq arrived) ∧
      Holds cipher (insert seq arrived) (frames.push seq (cipher seq)).1 ∧
      (frames.push seq (cipher seq)).2 = .ok ((List.range' (expected arrived)
        (expected (insert seq arrived) - expected arrived)).map cipher) := by
  have hmem : seq ∈ arrived ↔ seq < frames.nextSeq ∨ seq ∈ frames.pending := by
    rw [← AList.lookup_isSome, hholds.kept]
    constructor
    · intro harrived
      by_cases hlt : seq < frames.nextSeq
      · exact .inl hlt
      · exact .inr (by simp [harrived, Nat.le_of_not_lt hlt])
    · rintro (hlt | hpending)
      · exact hholds.before seq hlt
      · split_ifs at hpending with hboth
        · exact hboth.1
        · cases hpending
  unfold push
  split_ifs with hknown hahead hfar hmany
  · rw [Finset.insert_eq_self.mpr (hmem.mpr hknown), Nat.sub_self]
    exact ⟨hnext, hholds, rfl⟩
  · omega
  · have := hbytes (hnext ▸ hahead) fun harrived => hknown (hmem.mp harrived)
    omega
  · have hnew : seq ∉ arrived := fun harrived => hknown (hmem.mp harrived)
    rw [expected_insert_of_ne (by omega), Nat.sub_self]
    refine ⟨hnext, ⟨fun other hother => ?_, fun other => ?_⟩, rfl⟩
    · exact Finset.mem_insert_of_mem (hholds.before other hother)
    · dsimp only
      by_cases hother : other = seq
      · subst hother
        rw [AList.lookup_insert, if_pos ⟨Finset.mem_insert_self _ _, hahead.le⟩]
      · rw [AList.lookup_insert_ne hother, hholds.kept]
        simp [hother]
  · have hseq : seq = expected arrived := by
      omega
    have hlater : expected arrived < _ := expected_lt_expected_insert
    rw [← hseq] at hlater ⊢
    have hroom : frames.nextSeq + 1 < 2 ^ 32 := by omega
    rw [advance, if_pos hroom]
    have hstart : Holds cipher (insert seq arrived) { frames with nextSeq := frames.nextSeq + 1 } := by
      refine ⟨fun other hother => ?_, fun other => ?_⟩
      · rcases Nat.lt_succ_iff_lt_or_eq.mp hother with hlt | rfl
        · exact Finset.mem_insert_of_mem (hholds.before other hlt)
        · rw [hnext, hseq]
          exact Finset.mem_insert_self _ _
      · dsimp only
        rw [hholds.kept]
        have hmissing : seq ∉ arrived := fun harrived => hknown (hmem.mp harrived)
        have hiff : other ∈ arrived ∧ frames.nextSeq ≤ other ↔
            other ∈ insert seq arrived ∧ frames.nextSeq + 1 ≤ other := by
          constructor
          · rintro ⟨harrived, hle⟩
            have hne : other ≠ seq := by
              rintro rfl
              exact hmissing harrived
            exact ⟨Finset.mem_insert_of_mem harrived, by omega⟩
          · rintro ⟨harrived, hle⟩
            rcases Finset.mem_insert.mp harrived with rfl | harrived
            · omega
            · exact ⟨harrived, by omega⟩
        simp only [hiff]
    obtain ⟨hafter, hholdsAfter, hreleased⟩ := holds_release [cipher seq] hkept.succ hstart hbound
    refine ⟨hafter, hholdsAfter, ?_⟩
    have hlength : expected (insert seq arrived) - seq =
        (expected (insert seq arrived) - (frames.nextSeq + 1)) + 1 := by omega
    rw [hreleased, hlength, List.range'_succ, List.map_cons, List.singleton_append, hnext, hseq]

end Arrivals

end OrderedCiphertextFrames

end Codex.NoiseRelay
