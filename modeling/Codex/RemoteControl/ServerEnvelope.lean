import Codex.Lib.Except
import Mathlib.Data.Prod.Lex
import Codex.RemoteControl.Segment

/-!
# Server envelopes and their chunks

An envelope that is too long for the websocket is split into chunks: the serialised
message is cut into parts of equal length, as few as fit.  The chunks keep the client,
the stream and the sequence number of the envelope and are numbered from zero.

The serialisation and base64 are parameters (`ServerCodec`).

`split_chunks` says what the chunks are; the outcomes of a split are told apart in `split_cases`.
-/

namespace Codex.RemoteControl

open Text List

def remoteControlSegmentTargetBytes : ℕ := 100 * 1024

def remoteControlSegmentMaxBytes : ℕ := 150 * 1024

inductive PongStatus where
  | active
  | unknown
  deriving DecidableEq, Repr

/-- A message of the server; what the transport does not look at is a `Value`. -/
inductive OutgoingMessage (Value : Type) where
  | request (rest : Value)
  | appServerNotification (rest : Value)
  | response (id rest : Value)
  | error (id : Value) (code : ℤ) (message : Str)
  deriving DecidableEq, Repr

inductive ServerEvent (Value : Type) where
  | serverMessage (message : OutgoingMessage Value)
  | serverMessageChunk (segmentId segmentCount messageSizeBytes : ℕ) (messageChunkBase64 : Str)
  | ack
  | pong (status : PongStatus)
  deriving DecidableEq, Repr

variable {Value : Type}

def ServerEvent.segmentId : ServerEvent Value → Option ℕ
  | serverMessageChunk segmentId _ _ _ => some segmentId
  | _ => none

structure ServerEnvelope (Value : Type) where
  event : ServerEvent Value
  clientId : ClientId
  streamId : StreamId
  seqId : ℕ
  deriving DecidableEq, Repr

/-- `serde_json` and `base64`. -/
class ServerCodec (Value : Type) where
  serialize : ServerEnvelope Value → Except Str (List UInt8)
  serializeMessage : OutgoingMessage Value → Except Str (List UInt8)
  encode : List UInt8 → Str

/-- `INTERNAL_ERROR_CODE`. -/
def internalErrorCode : ℤ := -32603

def responseSerializationError (id : Value) (err : Str) : OutgoingMessage Value :=
  .error id internalErrorCode ("failed to serialize response: ".toList ++ err)

/-- `usize::div_ceil`. -/
def divCeil (a b : ℕ) : ℕ := (a + b - 1) / b

/-! ## Splitting -/

/-- The parts get smaller when there is one more of them, unless they are cut down to one byte. -/
theorem splitMeasure_lt {size segmentCount chunkSize : ℕ}
    (hchunk : chunkSize = max 1 (divCeil size segmentCount)) (hlong : chunkSize ≠ 1) :
    max 1 (divCeil size (if max 1 (divCeil size (divCeil size chunkSize + 1)) = chunkSize then size
      else divCeil size chunkSize + 1)) < chunkSize := by
  split_ifs with hsame
  · have hone : divCeil size size ≤ 1 := by
      unfold divCeil
      rcases Nat.eq_zero_or_pos size with rfl | hsize
      · simp
      · rw [Nat.div_le_iff_le_mul_add_pred hsize]
        omega
    omega
  · have hcover : size ≤ chunkSize * divCeil size chunkSize := by
      unfold divCeil
      have hmod := Nat.div_add_mod (size + chunkSize - 1) chunkSize
      have hlt := Nat.mod_lt (size + chunkSize - 1) (show 0 < chunkSize by omega)
      omega
    have hle : divCeil size (divCeil size chunkSize + 1) ≤ chunkSize := by
      generalize divCeil size chunkSize = segments at hcover
      unfold divCeil
      rw [Nat.div_le_iff_le_mul_add_pred (show 0 < segments + 1 by omega)]
      have hmul : (segments + 1) * chunkSize = chunkSize * segments + chunkSize := by
        rw [Nat.succ_mul, Nat.mul_comm]
      omega
    omega

/-- The first length of the parts, with their number, that lets every part fit. -/
def fitSegments (size : ℕ) (fits : ℕ → ℕ → Bool) (segmentCount : ℕ) : Option (ℕ × ℕ) :=
  let chunkSize := max 1 (divCeil size segmentCount)
  let segmentCount' := divCeil size chunkSize
  if fits chunkSize segmentCount' then some (chunkSize, segmentCount')
  else if _h : chunkSize = 1 then none
  else
    let nextSegmentCount := segmentCount' + 1
    let nextChunkSize := max 1 (divCeil size nextSegmentCount)
    fitSegments size fits (if nextChunkSize = chunkSize then size else nextSegmentCount)
termination_by max 1 (divCeil size segmentCount)
decreasing_by exact splitMeasure_lt rfl _h

theorem toChunks_go_spec {α : Type} {n : ℕ} (rest : List α) (part : Array α)
    (parts : Array (List α)) (hpos : 0 < part.size) (hle : part.size ≤ n) :
    (List.toChunks.go n rest part parts).flatten = parts.toList.flatten ++ part.toList ++ rest ∧
      (List.toChunks.go n rest part parts).length =
        parts.size + divCeil (part.size + rest.length) n := by
  induction rest generalizing part parts with
  | nil =>
    have hone : divCeil part.size n = 1 := Nat.div_eq_of_lt_le (by omega) (by omega)
    simp [List.toChunks.go, hone]
  | cons a rest ih =>
    rw [List.toChunks.go]
    split_ifs with hfull
    · have hnext := ih (#[a]) (parts.push part.toList) (by simp) (by simp; omega)
      have hcount : divCeil (part.size + (rest.length + 1)) n = divCeil (1 + rest.length) n + 1 := by
        rw [beq_iff_eq.mp hfull, divCeil, divCeil, ← Nat.add_div_right _ (by omega)]
        congr 1
        omega
      refine ⟨hnext.1.trans (by simp), hnext.2.trans ?_⟩
      simp
      omega
    · have hne : part.size ≠ n := by simpa using hfull
      have hnext := ih (part.push a) parts (by simp) (by simp; omega)
      refine ⟨hnext.1.trans (by simp), hnext.2.trans ?_⟩
      rw [Array.size_push, length_cons, Nat.add_assoc, Nat.add_comm 1]

/-- The parts of a list, put together, and their number. -/
theorem toChunks_spec {α : Type} {n : ℕ} (hn : 0 < n) (l : List α) :
    (l.toChunks n).flatten = l ∧ (l.toChunks n).length = divCeil l.length n := by
  cases l with
  | nil =>
    have hzero : divCeil 0 n = 0 := Nat.div_eq_of_lt (by omega)
    simp [List.toChunks, hzero]
  | cons a rest =>
    obtain ⟨k, rfl⟩ := Nat.exists_eq_succ_of_ne_zero hn.ne'
    have hgo := toChunks_go_spec rest (#[a]) #[] (by simp) (n := k + 1) (by simp)
    simpa [List.toChunks, Nat.add_comm] using hgo

/-- The search ends with parts that fit and with their number. -/
theorem fitSegments_eq_some {size start chunkSize segmentCount : ℕ} {fits : ℕ → ℕ → Bool}
    (h : fitSegments size fits start = some (chunkSize, segmentCount)) :
    0 < chunkSize ∧ segmentCount = divCeil size chunkSize ∧ fits chunkSize segmentCount = true := by
  fun_induction fitSegments size fits start with
  | case1 start chunkSize' segmentCount' hfits =>
    simp only [Option.some.injEq, Prod.mk.injEq] at h
    rw [← h.1, ← h.2]
    exact ⟨Nat.lt_of_lt_of_le Nat.one_pos (Nat.le_max_left _ _), rfl, hfits⟩
  | case2 => cases h
  | case3 start chunkSize' segmentCount' hfits hlong next nextSize ih => exact ih h

variable [ServerCodec Value]

def serializedLen (envelope : ServerEnvelope Value) : Except Str ℕ :=
  (ServerCodec.serialize envelope).map List.length

variable (envelope : ServerEnvelope Value) (segmentId segmentCount messageSizeBytes : ℕ)
  (chunk : List UInt8)

def buildChunkEnvelope : Except Str (ServerEnvelope Value) :=
  if remoteControlSegmentCountMax < segmentCount then
    .error "remote-control segment count exceeds maximum".toList
  else
    .ok { envelope with
      event := .serverMessageChunk segmentId segmentCount messageSizeBytes
        (ServerCodec.encode Value chunk) }

def serializedChunkLen : Except Str ℕ :=
  (buildChunkEnvelope envelope segmentId segmentCount messageSizeBytes chunk).bind serializedLen

/-- All parts of this length fit into the websocket. -/
def segmentsFit (raw : List UInt8) (chunkSize segmentCount : ℕ) : Bool :=
  (raw.toChunks chunkSize).zipIdx.all fun part =>
    match serializedChunkLen envelope part.2 segmentCount raw.length part.1 with
    | .ok size => size ≤ remoteControlSegmentMaxBytes
    | .error _ => false

/-- The chunks of a message that has been serialised; none if it cannot be made to fit. -/
def splitRaw (raw : List UInt8) : Except Str (List (ServerEnvelope Value)) :=
  if remoteControlReassembledMaxBytes < raw.length then .ok []
  else do
    let minimal ← serializedChunkLen envelope 0
      (min (max raw.length 1) remoteControlSegmentCountMax) raw.length (raw.take 1)
    if remoteControlSegmentMaxBytes < minimal then .ok []
    else
      match fitSegments raw.length (segmentsFit envelope raw)
          (max 2 (divCeil raw.length remoteControlSegmentTargetBytes)) with
      | none => .ok []
      | some (chunkSize, segmentCount) =>
        (raw.toChunks chunkSize).zipIdx.mapM fun part =>
          buildChunkEnvelope envelope part.2 segmentCount raw.length part.1

/-- A message that is too long is split; a response that cannot be serialised becomes an error. -/
def splitServerEnvelopeForTransport : Except Str (List (ServerEnvelope Value)) :=
  match envelope.event with
  | .serverMessage message =>
    match serializedLen envelope with
    | .error err =>
      match message with
      | .response id _ =>
        .ok [{ envelope with event := .serverMessage (responseSerializationError id err) }]
      | _ => .error err
    | .ok size =>
      if size ≤ remoteControlSegmentMaxBytes then .ok [envelope]
      else (ServerCodec.serializeMessage message).bind (splitRaw envelope)
  | _ => .ok [envelope]

/-! ## The chunks of an envelope -/

namespace ServerEnvelope

/-- The stream of a client that the envelope belongs to. -/
def key (envelope : ServerEnvelope Value) : ClientId × StreamId :=
  (envelope.clientId, envelope.streamId)

/-- The place of the envelope in its stream. -/
def position (envelope : ServerEnvelope Value) : ℕ ×ₗ ℕ :=
  toLex (envelope.seqId, envelope.event.segmentId.getD 0)

end ServerEnvelope

/-- The parts of one envelope, in order. -/
structure PartsOf (envelope : ServerEnvelope Value) (parts : List (ServerEnvelope Value)) : Prop where
  key_eq : ∀ part ∈ parts, part.key = envelope.key
  seqId_eq : ∀ part ∈ parts, part.seqId = envelope.seqId
  ordered : (parts.map ServerEnvelope.position).Pairwise (· < ·)

variable {envelope : ServerEnvelope Value} {parts : List (ServerEnvelope Value)}

omit [ServerCodec Value] in
/-- Leaving out parts keeps the order. -/
theorem PartsOf.filter (h : PartsOf envelope parts) (keep : ServerEnvelope Value → Bool) :
    PartsOf envelope (parts.filter keep) := by
  refine ⟨fun part hpart => h.key_eq part (mem_of_mem_filter hpart),
    fun part hpart => h.seqId_eq part (mem_of_mem_filter hpart), ?_⟩
  exact h.ordered.sublist (filter_sublist.map _)

/-- The envelope of a chunk. -/
def chunkPart (envelope : ServerEnvelope Value) (segmentCount size : ℕ) (part : List UInt8 × ℕ) :
    ServerEnvelope Value :=
  { envelope with
    event := .serverMessageChunk part.2 segmentCount size (ServerCodec.encode Value part.1) }

/-- The text that a chunk carries. -/
def ServerEvent.messageChunkBase64 : ServerEvent Value → Option Str
  | serverMessageChunk _ _ _ text => some text
  | _ => none

/-- The chunks of a message. -/
structure ChunksOf (envelope : ServerEnvelope Value) (raw : List UInt8)
    (parts : List (ServerEnvelope Value)) : Prop where
  length_le : parts.length ≤ remoteControlSegmentCountMax
  part : ∀ (segmentId : ℕ) part, parts[segmentId]? = some part →
    part.key = envelope.key ∧ part.seqId = envelope.seqId ∧
      (∃ text, part.event = .serverMessageChunk segmentId parts.length raw.length text) ∧
      ∃ size, serializedLen part = .ok size ∧ size ≤ remoteControlSegmentMaxBytes
  decoded : ∀ decode : Str → Option (List UInt8),
    (∀ bytes, decode (ServerCodec.encode Value bytes) = some bytes) →
      ∃ payloads : List (List UInt8), payloads.flatten = raw ∧
        parts.map (fun part => part.event.messageChunkBase64.bind decode) = payloads.map some

theorem chunksOf_mapM {raw : List UInt8} {chunkSize segmentCount : ℕ} (hsize : 0 < chunkSize)
    (hcount : segmentCount = divCeil raw.length chunkSize)
    (hfits : segmentsFit envelope raw chunkSize segmentCount = true)
    (h : (raw.toChunks chunkSize).zipIdx.mapM (fun part =>
      buildChunkEnvelope envelope part.2 segmentCount raw.length part.1) = .ok parts) :
    parts = [] ∨ ChunksOf envelope raw parts := by
  obtain ⟨hflatten, hlength⟩ := toChunks_spec hsize raw
  by_cases hmax : segmentCount ≤ remoteControlSegmentCountMax
  · have hbuild : ∀ part : List UInt8 × ℕ,
        buildChunkEnvelope envelope part.2 segmentCount raw.length part.1 =
          .ok (chunkPart envelope segmentCount raw.length part) := fun _ => if_neg (by omega)
    rw [mapM_eq_ok fun part _ => hbuild part] at h
    cases h
    have hparts : ((raw.toChunks chunkSize).zipIdx.map
        (chunkPart envelope segmentCount raw.length)).length = segmentCount := by
      rw [length_map, length_zipIdx, hlength, hcount]
    refine .inr ⟨hparts.trans_le hmax, ?_, fun decode hdecode => ⟨_, hflatten, ?_⟩⟩
    · intro segmentId part hpart
      rw [getElem?_map, getElem?_zipIdx] at hpart
      obtain ⟨indexed, hindexed, rfl⟩ := Option.map_eq_some_iff.mp hpart
      obtain ⟨chunk, hchunk, rfl⟩ := Option.map_eq_some_iff.mp hindexed
      rw [Nat.zero_add, hparts]
      have hfit := all_eq_true.mp hfits (chunk, segmentId) (mk_mem_zipIdx_iff_getElem?.mpr hchunk)
      rw [serializedChunkLen, hbuild (chunk, segmentId), Except.bind] at hfit
      refine ⟨rfl, rfl, ⟨_, rfl⟩, ?_⟩
      split at hfit
      · exact ⟨_, ‹_›, of_decide_eq_true hfit⟩
      · cases hfit
    · rw [map_map]
      conv_rhs => rw [← zipIdx_map_fst 0 (raw.toChunks chunkSize), map_map]
      exact map_congr_left fun (part : List UInt8 × ℕ) _ => hdecode part.1
  · cases hchunks : raw.toChunks chunkSize with
    | nil =>
      rw [hchunks] at h
      cases h
      exact .inl rfl
    | cons chunk rest =>
      rw [hchunks, zipIdx_cons, mapM_cons] at h
      obtain ⟨built, hbuilt, -⟩ := bind_eq_ok h
      rw [buildChunkEnvelope, if_pos (by omega)] at hbuilt
      cases hbuilt

theorem chunksOf_splitRaw {raw : List UInt8} (h : splitRaw envelope raw = .ok parts) :
    parts = [] ∨ ChunksOf envelope raw parts := by
  unfold splitRaw at h
  split_ifs at h
  · cases h
    exact .inl rfl
  · obtain ⟨minimal, -, h⟩ := bind_eq_ok h
    split_ifs at h
    · cases h
      exact .inl rfl
    · split at h
      · cases h
        exact .inl rfl
      · obtain ⟨hsize, hcount, hfits⟩ := fitSegments_eq_some ‹_›
        exact chunksOf_mapM hsize hcount hfits h

/-- What an envelope is sent as: the envelope itself, an error in its place, nothing, or the
chunks of its message. -/
theorem split_cases (h : splitServerEnvelopeForTransport envelope = .ok parts) :
    (∃ event, parts = [{ envelope with event := event }] ∧
      (event = envelope.event ∨ event.messageChunkBase64 = none)) ∨ parts = [] ∨
      ∃ message raw, envelope.event = .serverMessage message ∧
        ServerCodec.serializeMessage message = .ok raw ∧ ChunksOf envelope raw parts := by
  unfold splitServerEnvelopeForTransport at h
  split at h
  · split at h
    · split at h
      · cases h
        exact .inl ⟨_, rfl, .inr rfl⟩
      · cases h
    · split_ifs at h
      · cases h
        exact .inl ⟨_, rfl, .inl rfl⟩
      · obtain ⟨raw, hraw, h⟩ := bind_eq_ok h
        exact .inr ((chunksOf_splitRaw h).imp_right fun hchunks => ⟨_, raw, ‹_›, hraw, hchunks⟩)
  · cases h
    exact .inl ⟨_, rfl, .inl rfl⟩

theorem ChunksOf.partsOf {raw : List UInt8} (h : ChunksOf envelope raw parts) :
    PartsOf envelope parts := by
  have hpart : ∀ part ∈ parts, part.key = envelope.key ∧ part.seqId = envelope.seqId := by
    intro part hmem
    obtain ⟨segmentId, hget⟩ := mem_iff_getElem?.mp hmem
    exact (h.part segmentId part hget).imp_right And.left
  refine ⟨fun part hmem => (hpart part hmem).1, fun part hmem => (hpart part hmem).2, ?_⟩
  rw [pairwise_map, pairwise_iff_getElem]
  intro i j hi hj hlt
  have hposition : ∀ i (hi : i < parts.length), parts[i].position = toLex (envelope.seqId, i) := by
    intro i hi
    obtain ⟨-, hseq, ⟨text, htext⟩, -⟩ := h.part i _ (getElem?_eq_getElem hi)
    rw [ServerEnvelope.position, hseq, htext]
    rfl
  rw [hposition i hi, hposition j hj]
  exact Prod.Lex.toLex_lt_toLex.mpr (.inr ⟨rfl, hlt⟩)

/-- What is sent for an envelope belongs to its stream and is in order. -/
theorem partsOf_split (h : splitServerEnvelopeForTransport envelope = .ok parts) :
    PartsOf envelope parts := by
  rcases split_cases h with ⟨event, rfl, -⟩ | rfl | ⟨message, raw, -, -, hchunks⟩
  · exact ⟨by simp [ServerEnvelope.key], by simp, by simp⟩
  · exact ⟨by simp, by simp, by simp⟩
  · exact hchunks.partsOf

/-- The chunks that an envelope is split into are numbered from zero, say how many they are and
how long the message is, fit into the websocket, and bring back the message. -/
theorem split_chunks (envelope : ServerEnvelope Value) (parts : List (ServerEnvelope Value))
    (h : splitServerEnvelopeForTransport envelope = .ok parts)
    (hchunk : ∃ part ∈ parts, part.event.messageChunkBase64.isSome = true) :
    parts = [envelope] ∨ ∃ message raw, envelope.event = .serverMessage message ∧
      ServerCodec.serializeMessage message = .ok raw ∧ ChunksOf envelope raw parts := by
  obtain ⟨part, hmem, hsome⟩ := hchunk
  rcases split_cases h with ⟨event, rfl, rfl | hnone⟩ | rfl | hchunks
  · exact .inl rfl
  · obtain rfl := mem_singleton.mp hmem
    simp [hnone] at hsome
  · cases hmem
  · exact .inr hchunks

/-- Messages of two bytes, with envelopes that are too long for them. -/
@[reducible] def longCodec : ServerCodec Unit where
  serialize envelope := .ok (if envelope.event.segmentId.isSome then []
    else List.replicate (remoteControlSegmentMaxBytes + 1) 0)
  serializeMessage _ := .ok [1, 2]
  encode bytes := bytes.map fun byte => Char.ofNat byte.toNat

theorem split_chunks_two_bytes :
    let _ := longCodec
    let envelope : ServerEnvelope Unit := ⟨.serverMessage (.request ()), ⟨[]⟩, ⟨[]⟩, 0⟩
    let parts := [chunkPart envelope 2 2 ([1], 0), chunkPart envelope 2 2 ([2], 1)]
    splitServerEnvelopeForTransport envelope = .ok parts ∧
      (∃ part ∈ parts, part.event.messageChunkBase64.isSome = true) ∧
      (parts = [envelope] ∨ ∃ message raw, envelope.event = .serverMessage message ∧
        ServerCodec.serializeMessage message = .ok raw ∧ ChunksOf envelope raw parts) := by
  intro _ envelope parts
  have hsplit : splitServerEnvelopeForTransport envelope = .ok parts := by
    have hlong : serializedLen envelope = .ok (remoteControlSegmentMaxBytes + 1) :=
      congrArg Except.ok length_replicate
    have hfits : fitSegments 2 (segmentsFit envelope [1, 2]) 2 = some (1, 2) := by
      rw [fitSegments]
      exact if_pos rfl
    have hraw : splitRaw envelope [1, 2] = .ok parts := by
      change (match fitSegments 2 (segmentsFit envelope [1, 2]) 2 with
        | none => _
        | some (chunkSize, segmentCount) => _) = _
      rw [hfits]
      rfl
    rw [splitServerEnvelopeForTransport, hlong]
    exact (if_neg (Nat.not_succ_le_self remoteControlSegmentMaxBytes)).trans hraw
  have hchunk : ∃ part ∈ parts, part.event.messageChunkBase64.isSome = true :=
    ⟨_, mem_cons_self, rfl⟩
  exact ⟨hsplit, hchunk, split_chunks envelope parts hsplit hchunk⟩

end Codex.RemoteControl
