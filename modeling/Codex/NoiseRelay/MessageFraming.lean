import Codex.NoiseRelay.OrderedCiphertext

/-!
# Payloads in a byte stream

A payload is sent with its length in front of it, and the bytes of all payloads are cut into
records.  The receiver appends each record to its buffer and takes off the payloads that are
complete.  However the bytes are cut, the payloads that come out are those that went in
(`push_unread`).
-/

namespace Codex.NoiseRelay

open List

def lengthPrefixBytes : ℕ := 4

def maxNoiseJsonRpcMessageLen : ℕ := 64 * 1024 * 1024

def noiseRecordPlaintextLen : ℕ := 60 * 1024

/-! ## Sending -/

/-- `u32::to_be_bytes` -/
def toBeBytes (n : ℕ) : Bytes :=
  [UInt8.ofNat (n / 2 ^ 24), UInt8.ofNat (n / 2 ^ 16), UInt8.ofNat (n / 2 ^ 8), UInt8.ofNat n]

/-- `u32::from_be_bytes` -/
def fromBeBytes (a b c d : UInt8) : ℕ :=
  a.toNat * 2 ^ 24 + b.toNat * 2 ^ 16 + c.toNat * 2 ^ 8 + d.toNat

def messageLengthPrefix (messageLen : ℕ) : Except RelayError Bytes :=
  if messageLen = 0 ∨ maxNoiseJsonRpcMessageLen < messageLen then .error .messageTooLong
  else .ok (toBeBytes messageLen)

def frameMessage (message : Bytes) : Except RelayError Bytes := do
  let lengthPrefix ← messageLengthPrefix message.length
  return lengthPrefix ++ message

/-- `slice::chunks` -/
def chunks (size : ℕ) (bytes : Bytes) : List Bytes :=
  if _h : bytes = [] ∨ size = 0 then []
  else bytes.take size :: chunks size (bytes.drop size)
termination_by bytes.length
decreasing_by
  have hpos := length_pos_of_ne_nil fun hnil => _h (.inl hnil)
  rw [length_drop]
  omega

variable {bytes : Bytes}

theorem chunks_of_length_le {size : ℕ} (hbytes : bytes ≠ []) (hlength : bytes.length ≤ size) :
    chunks size bytes = [bytes] := by
  have hpos := length_pos_of_ne_nil hbytes
  rw [chunks, dif_neg (not_or.mpr ⟨hbytes, by omega⟩), take_of_length_le hlength,
    drop_eq_nil_of_le hlength, chunks, dif_pos (.inl rfl)]

theorem flatten_chunks {size : ℕ} (hsize : 0 < size) (bytes : Bytes) :
    (chunks size bytes).flatten = bytes := by
  fun_induction chunks size bytes with
  | case1 bytes hend =>
    rcases hend with rfl | hzero
    · rfl
    · omega
  | case2 bytes hmore ih => rw [flatten_cons, ih, take_append_drop]

theorem length_le_of_mem_chunks {size : ℕ} {chunk : Bytes} (h : chunk ∈ chunks size bytes) :
    chunk.length ≤ size := by
  fun_induction chunks size bytes with
  | case1 bytes hend => cases h
  | case2 bytes hmore ih =>
    rcases mem_cons.mp h with rfl | hrest
    · exact length_take_le _ _
    · exact ih hrest

/-! ## Receiving -/

/-- The length at the front of the buffer, and the bytes behind it. -/
def takePrefix : Bytes → Option (ℕ × Bytes)
  | a :: b :: c :: d :: rest => some (fromBeBytes a b c d, rest)
  | _ => none

variable {buffered : Bytes} {messageLen : ℕ}

theorem length_of_takePrefix {rest : Bytes} (h : takePrefix buffered = some (messageLen, rest)) :
    buffered.length = rest.length + lengthPrefixBytes := by
  unfold takePrefix at h
  split at h
  · cases h
    rfl
  · cases h

/-- The loop of `push`: the complete payloads at the front of the buffer. -/
def takeMessages (buffered : Bytes) : Bytes × Except RelayError (List Bytes) :=
  match _h : takePrefix buffered with
  | none => (buffered, .ok [])
  | some (messageLen, rest) =>
    if messageLen = 0 ∨ maxNoiseJsonRpcMessageLen < messageLen then
      (buffered, .error .invalidMessageLength)
    else if rest.length < messageLen then (buffered, .ok [])
    else
      ((takeMessages (rest.drop messageLen)).1,
        (takeMessages (rest.drop messageLen)).2.map (rest.take messageLen :: ·))
termination_by buffered.length
decreasing_by
  all_goals
    rw [length_of_takePrefix _h, length_drop, lengthPrefixBytes]
    omega

structure MessageDecoder where
  buffered : Bytes

def MessageDecoder.new : MessageDecoder := ⟨[]⟩

/-- Takes the complete messages off the front of the buffer. -/
def MessageDecoder.push (decoder : MessageDecoder) (plaintextRecord : Bytes) :
    MessageDecoder × Except RelayError (List Bytes) :=
  if noiseRecordPlaintextLen < plaintextRecord.length then (decoder, .error .recordTooLong)
  else
    match takeMessages (decoder.buffered ++ plaintextRecord) with
    | (left, .error error) => (⟨left⟩, .error error)
    | (left, .ok messages) =>
      if lengthPrefixBytes + maxNoiseJsonRpcMessageLen < left.length then
        (⟨left⟩, .error .reassemblyBufferFull)
      else (⟨left⟩, .ok messages)

/-! ## What comes out is what went in -/

/-- The payload with its length, as it is sent. -/
def framed (payload : Bytes) : Bytes := toBeBytes payload.length ++ payload

theorem length_framed (payload : Bytes) :
    (framed payload).length = lengthPrefixBytes + payload.length := by
  simp [framed, toBeBytes, lengthPrefixBytes]
  omega

/-- A payload that can be sent. -/
def Sendable (payload : Bytes) : Prop :=
  payload ≠ [] ∧ payload.length ≤ maxNoiseJsonRpcMessageLen

theorem frameMessage_eq_ok_iff {payload : Bytes} :
    frameMessage payload = .ok bytes ↔ Sendable payload ∧ bytes = framed payload := by
  unfold frameMessage messageLengthPrefix Sendable
  split_ifs with hbad
  · constructor
    · intro h
      cases h
    · rintro ⟨⟨hne, hle⟩, -⟩
      rcases hbad with hzero | hlong
      · exact absurd (length_eq_zero_iff.mp hzero) hne
      · omega
  · obtain ⟨hzero, hlong⟩ := not_or.mp hbad
    constructor
    · intro h
      cases h
      exact ⟨⟨fun hnil => hzero (by simp [hnil]), by omega⟩, rfl⟩
    · rintro ⟨-, rfl⟩
      rfl

/-- The buffer is the beginning of what is still to be read, and holds no complete payload. -/
structure Unread (buffered future : Bytes) (rest : List Bytes) : Prop where
  bytes : buffered ++ future = rest.flatMap framed
  short : ∀ payload ∈ rest.head?, buffered.length < (framed payload).length

/-- Nothing has been read yet. -/
theorem Unread.start (payloads : List Bytes) : Unread [] (payloads.flatMap framed) payloads := by
  refine ⟨rfl, fun payload _ => ?_⟩
  rw [length_framed, lengthPrefixBytes, length_nil]
  omega

/-- No payload is left if there is nothing more to come. -/
theorem Unread.rest_eq_nil {rest : List Bytes} (h : Unread buffered [] rest) : rest = [] := by
  cases rest with
  | nil => rfl
  | cons payload later =>
    have hshort := h.short payload rfl
    have hbytes := congrArg List.length h.bytes
    rw [append_nil, flatMap_cons, length_append] at hbytes
    omega

variable {future : Bytes}

theorem length_lt_of_takePrefix_none (h : takePrefix buffered = none) :
    buffered.length < lengthPrefixBytes := by
  unfold takePrefix at h
  split at h
  · cases h
  · next hshort =>
      match buffered, hshort with
      | [], _ => simp [lengthPrefixBytes]
      | [_], _ => simp [lengthPrefixBytes]
      | [_, _], _ => simp [lengthPrefixBytes]
      | [_, _, _], _ => simp [lengthPrefixBytes]
      | a :: b :: c :: d :: rest, hshort => exact absurd rfl (hshort a b c d rest)

variable {payloads : List Bytes}

variable (hsend : ∀ payload ∈ payloads, Sendable payload)
include hsend

theorem exists_payload {rest : Bytes} (hbytes : buffered ++ future = payloads.flatMap framed)
    (hfront : takePrefix buffered = some (messageLen, rest)) :
    ∃ payload later, payloads = payload :: later ∧ messageLen = payload.length ∧
      rest ++ future = payload ++ later.flatMap framed := by
  cases payloads with
  | nil =>
    rw [flatMap_nil, append_eq_nil_iff] at hbytes
    rw [hbytes.1] at hfront
    cases hfront
  | cons payload later =>
    -- the length of the first payload stands in front of it
    unfold takePrefix at hfront
    split at hfront
    · next a b c d behind =>
        obtain ⟨rfl, rfl⟩ := Prod.mk.inj (Option.some.inj hfront)
        have hlength : payload.length < 2 ^ 32 := by
          have := (hsend payload mem_cons_self).2
          unfold maxNoiseJsonRpcMessageLen at this
          omega
        simp only [flatMap_cons, framed, toBeBytes, cons_append, List.cons.injEq] at hbytes
        obtain ⟨rfl, rfl, rfl, rfl, hrest⟩ := hbytes
        refine ⟨payload, later, rfl, ?_, hrest⟩
        simp only [fromBeBytes, UInt8.toNat_ofNat']
        omega
    · cases hfront

/-- Read from the beginning of some payloads, the buffer gives the first ones and keeps less than
the next one. -/
theorem takeMessages_spec (hbytes : buffered ++ future = payloads.flatMap framed) :
    ∃ messages rest, payloads = messages ++ rest ∧ (takeMessages buffered).2 = .ok messages ∧
      Unread (takeMessages buffered).1 future rest := by
  fun_induction takeMessages buffered generalizing payloads with
  | case1 buffered hnone =>
    refine ⟨[], payloads, rfl, rfl, hbytes, fun payload _ => ?_⟩
    have := length_lt_of_takePrefix_none hnone
    rw [length_framed]
    dsimp only
    omega
  | case2 buffered messageLen rest hfront hbad =>
    obtain ⟨payload, later, rfl, rfl, -⟩ := exists_payload hsend hbytes hfront
    obtain ⟨hne, hle⟩ := hsend payload mem_cons_self
    rcases hbad with hzero | hlong
    · exact absurd (length_eq_zero_iff.mp hzero) hne
    · omega
  | case3 buffered messageLen rest hfront hgood hshort =>
    obtain ⟨payload, later, rfl, rfl, -⟩ := exists_payload hsend hbytes hfront
    refine ⟨[], payload :: later, rfl, rfl, hbytes, fun first hfirst => ?_⟩
    obtain rfl := Option.some.inj hfirst
    rw [length_framed, length_of_takePrefix hfront]
    omega
  | case4 buffered messageLen rest hfront hgood hfull ih =>
    obtain ⟨payload, later, rfl, rfl, hrest⟩ := exists_payload hsend hbytes hfront
    have hle : payload.length ≤ rest.length := Nat.le_of_not_lt hfull
    have htake : rest.take payload.length = payload := by
      have := congrArg (List.take payload.length) hrest
      rwa [take_append_of_le_length hle, take_left] at this
    have hdrop : rest.drop payload.length ++ future = later.flatMap framed := by
      have := congrArg (List.drop payload.length) hrest
      rwa [drop_append_of_le_length hle, drop_left] at this
    obtain ⟨messages, left, rfl, hmessages, hunread⟩ :=
      ih (fun other hother => hsend other (mem_cons_of_mem _ hother)) hdrop
    refine ⟨payload :: messages, left, rfl, ?_, hunread⟩
    rw [hmessages, htake]
    rfl

/-- A record that continues the bytes of the payloads. -/
theorem push_unread {decoder : MessageDecoder} {record : Bytes}
    (hrecord : record.length ≤ noiseRecordPlaintextLen)
    (hunread : Unread decoder.buffered (record ++ future) payloads) :
    ∃ messages rest, payloads = messages ++ rest ∧ (decoder.push record).2 = .ok messages ∧
      Unread (decoder.push record).1.buffered future rest := by
  have hbytes : (decoder.buffered ++ record) ++ future = payloads.flatMap framed := by
    rw [List.append_assoc, hunread.bytes]
  obtain ⟨messages, rest, rfl, hmessages, hleft⟩ := takeMessages_spec hsend hbytes
  have hbounded : ¬lengthPrefixBytes + maxNoiseJsonRpcMessageLen <
      (takeMessages (decoder.buffered ++ record)).1.length := by
    cases hrest : rest with
    | nil =>
      have hnil := hleft.bytes
      rw [hrest, flatMap_nil, append_eq_nil_iff] at hnil
      simp [hnil.1]
    | cons payload later =>
      have hshort := hleft.short payload (by simp [hrest])
      have hlong := (hsend payload (by simp [hrest])).2
      rw [length_framed] at hshort
      omega
  have hpair : takeMessages (decoder.buffered ++ record) =
      ((takeMessages (decoder.buffered ++ record)).1, .ok messages) := Prod.ext rfl hmessages
  have hpush : decoder.push record =
      (⟨(takeMessages (decoder.buffered ++ record)).1⟩, .ok messages) := by
    rw [MessageDecoder.push, if_neg (Nat.not_lt.mpr hrecord), hpair]
    exact if_neg hbounded
  rw [hpush]
  exact ⟨messages, rest, rfl, rfl, hleft⟩

end Codex.NoiseRelay
