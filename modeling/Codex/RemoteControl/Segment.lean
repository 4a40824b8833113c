import Mathlib.Data.List.MinMax
import Codex.Lib.Assoc
import Codex.Lib.Bytes
import Codex.Lib.Run
import Codex.RemoteControl.Protocol

/-!
# Reassembling chunked messages

The reassembler keeps one assembly for each client: the stream and the metadata of the
message it collects, the bytes so far and the number of the next chunk.  Chunks that do
not fit drop the assembly; an assembly that is complete is decoded and forwarded.  When
there are too many assemblies, the one that has waited longest is evicted.

Base64 and JSON are parameters (`WireCodec`), and so are the time and the order in which
the hash map is iterated (`Moment`).

`reassembler_sound` is about any envelopes and invalidations: one step keeps the assemblies sound
(`observe_sound`), and `sound_after` is the induction over the steps.
-/

namespace Codex.RemoteControl

open Text Bytes Assoc

def remoteControlReassembledMaxBytes : ℕ := 100 * 1024 * 1024

def remoteControlSegmentCountMax : ℕ := 1024

def remoteControlSegmentAssemblyMaxCount : ℕ := 128

inductive DecodeSliceError where
  | outputSliceTooSmall
  | decodeError
  deriving DecidableEq, Repr

/-- The `base64` and `serde_json` crates. -/
class WireCodec (Value : Type) where
  decodedLenEstimate : ℕ → ℕ
  decode : Str → Option (List UInt8)
  /-- Decodes into a slice of the given length. -/
  decodeSlice : Str → ℕ → Except DecodeSliceError (List UInt8)
  decodeSlice_ok : ∀ text capacity bytes, decodeSlice text capacity = .ok bytes →
    decode text = some bytes ∧ bytes.length ≤ capacity
  parseMessage : List UInt8 → Option (JsonRpcMessage Value)

structure ClientSegmentMetadata where
  seqId : ℕ
  segmentCount : ℕ
  messageSizeBytes : ℕ
  deriving DecidableEq, Repr

structure ClientSegmentAssembly where
  streamId : StreamId
  metadata : ClientSegmentMetadata
  raw : List UInt8
  nextSegmentId : ℕ
  lastChunkSeenAt : ℕ
  deriving DecidableEq, Repr

abbrev Assemblies := AList fun _ : ClientId => ClientSegmentAssembly

/-- The time of a call, and the order in which it iterates over the assemblies. -/
structure Moment where
  now : ℕ
  iterate : List (Sigma fun _ : ClientId => ClientSegmentAssembly) →
    List (Sigma fun _ : ClientId => ClientSegmentAssembly)
  perm : ∀ entries, (iterate entries).Perm entries

inductive ClientSegmentObservation (Value : Type) where
  | forward (envelope : ClientEnvelope Value)
  | pending
  | dropped
  deriving DecidableEq, Repr

inductive AssemblyUpdate (Value : Type) where
  | pending
  | ignore
  | drop
  | complete (message : JsonRpcMessage Value)
  deriving DecidableEq, Repr

/-! ## One assembly -/

namespace ClientSegmentAssembly

def start (streamId : StreamId) (metadata : ClientSegmentMetadata) (now : ℕ) :
    ClientSegmentAssembly :=
  ⟨streamId, metadata, [], 0, now⟩

/-- `Vec::resize` with zeros. -/
def resize (bytes : List UInt8) (length : ℕ) : List UInt8 :=
  bytes.take length ++ List.replicate (length - bytes.length) 0

variable {Value : Type} [WireCodec Value]

/-- The buffer that a chunk is decoded into: room for the chunk, but not beyond the declared size
of the message. -/
def buffer (Value : Type) [WireCodec Value] (assembly : ClientSegmentAssembly)
    (metadata : ClientSegmentMetadata) (messageChunkBase64 : Str) : List UInt8 :=
  resize assembly.raw (min metadata.messageSizeBytes
    (assembly.raw.length + WireCodec.decodedLenEstimate Value (asBytes messageChunkBase64).length))

/-- A chunk at its place in the message. -/
def update (assembly : ClientSegmentAssembly) (now : ℕ) (metadata : ClientSegmentMetadata)
    (segmentId : ℕ) (messageChunkBase64 : Str) : AssemblyUpdate Value × ClientSegmentAssembly :=
  if metadata.seqId < assembly.metadata.seqId then (.ignore, assembly)
  else if assembly.metadata ≠ metadata then (.drop, assembly)
  else if segmentId < assembly.nextSegmentId then (.pending, assembly)
  else if segmentId ≠ assembly.nextSegmentId then (.drop, assembly)
  else
    let chunkStart := assembly.raw.length
    let buffer := assembly.buffer Value metadata messageChunkBase64
    match WireCodec.decodeSlice Value messageChunkBase64 (buffer.drop chunkStart).length with
    | .error _ => (.drop, { assembly with raw := buffer, lastChunkSeenAt := now })
    | .ok bytes =>
      -- the decoded bytes overwrite the buffer, which is then truncated behind them
      let written := buffer.take chunkStart ++ bytes ++ buffer.drop (chunkStart + bytes.length)
      let assembly := { assembly with
        raw := written.take (chunkStart + bytes.length)
        nextSegmentId := assembly.nextSegmentId + 1
        lastChunkSeenAt := now }
      if assembly.nextSegmentId < metadata.segmentCount then (.pending, assembly)
      else if assembly.raw.length ≠ metadata.messageSizeBytes then (.drop, assembly)
      else
        match WireCodec.parseMessage assembly.raw with
        | some message => (.complete message, assembly)
        | none => (.drop, assembly)

end ClientSegmentAssembly

/-! ## The reassembler -/

namespace Assemblies

/-- Removes the assembly that has waited longest, until there is room; each round removes one. -/
def evictWhileFull (moment : Moment) : ℕ → Assemblies → Assemblies
  | 0, assemblies => assemblies
  | fuel + 1, assemblies =>
    if remoteControlSegmentAssemblyMaxCount ≤ assemblies.entries.length then
      match (moment.iterate assemblies.entries).argmin fun entry => entry.2.lastChunkSeenAt with
      | some entry => evictWhileFull moment fuel (assemblies.erase entry.1)
      | none => assemblies
    else assemblies

/-- `evict_assemblies_if_full`. -/
def evictAssembliesIfFull (moment : Moment) (assemblies : Assemblies) : Assemblies :=
  evictWhileFull moment assemblies.entries.length assemblies

/-- A chunk that the assembly of its stream has already seen. -/
def shouldIgnoreChunk (assemblies : Assemblies) (clientId : ClientId) (streamId : StreamId)
    (seqId segmentId : ℕ) : Bool :=
  (assemblies.lookup clientId).any fun assembly =>
    assembly.streamId = streamId &&
      (seqId < assembly.metadata.seqId ||
        (seqId = assembly.metadata.seqId && segmentId < assembly.nextSegmentId))

def removeAssembly (assemblies : Assemblies) (clientId : ClientId) (streamId : StreamId) :
    Assemblies :=
  if (assemblies.lookup clientId).any fun assembly => assembly.streamId = streamId then
    assemblies.erase clientId
  else assemblies

/-- The assembly for a chunk, with the map that holds it: a new one for a new client or stream. -/
def openAssembly (moment : Moment) (assemblies : Assemblies) (clientId : ClientId)
    (streamId : StreamId) (metadata : ClientSegmentMetadata) :
    ClientSegmentAssembly × Assemblies :=
  let fresh := ClientSegmentAssembly.start streamId metadata moment.now
  match assemblies.lookup clientId with
  | some assembly =>
    if assembly.streamId ≠ streamId then (fresh, assemblies.insert clientId fresh)
    else (assembly, assemblies)
  | none => (fresh, (assemblies.evictAssembliesIfFull moment).insert clientId fresh)

variable {Value : Type} [WireCodec Value]

/-- `ClientSegmentReassembler::observe`. -/
def observe (moment : Moment) (assemblies : Assemblies) (envelope : ClientEnvelope Value) :
    ClientSegmentObservation Value × Assemblies :=
  match envelope.event with
  | .clientMessageChunk segmentId segmentCount messageSizeBytes messageChunkBase64 =>
    match envelope.seqId, envelope.streamId with
    | some seqId, some streamId =>
      let metadata : ClientSegmentMetadata := ⟨seqId, segmentCount, messageSizeBytes⟩
      if assemblies.shouldIgnoreChunk envelope.clientId streamId seqId segmentId then
        (.dropped, assemblies)
      else if segmentCount = 0 ∨ remoteControlSegmentCountMax < segmentCount ∨
          segmentCount ≤ segmentId ∨ messageSizeBytes = 0 ∨
          remoteControlReassembledMaxBytes < messageSizeBytes ∨ messageChunkBase64 = [] then
        (.dropped, assemblies.removeAssembly envelope.clientId streamId)
      else
        let (assembly, opened) :=
          assemblies.openAssembly moment envelope.clientId streamId metadata
        let (result, updated) :=
          assembly.update moment.now metadata segmentId messageChunkBase64
        let assemblies : Assemblies := opened.insert envelope.clientId updated
        match result with
        | .pending => (.pending, assemblies)
        | .ignore => (.dropped, assemblies)
        | .drop => (.dropped, assemblies.removeAssembly envelope.clientId streamId)
        | .complete message =>
          (.forward { envelope with event := .clientMessage message },
            assemblies.removeAssembly envelope.clientId streamId)
    | _, _ => (.dropped, assemblies)
  | _ => (.forward envelope, assemblies)

end Assemblies

/-! ## Runs -/

/-- What happens to a reassembler. -/
inductive SegmentInput (Value : Type) where
  | observe (moment : Moment) (envelope : ClientEnvelope Value)
  | invalidateStream (clientId : ClientId) (streamId : StreamId)
  | invalidateClient (clientId : ClientId)

variable {Value : Type} [WireCodec Value]

def segmentStep (assemblies : Assemblies) :
    SegmentInput Value → Assemblies × List (ClientSegmentObservation Value)
  | .observe moment envelope =>
    let (observation, assemblies) := assemblies.observe moment envelope
    (assemblies, [observation])
  | .invalidateStream clientId streamId => (assemblies.removeAssembly clientId streamId, [])
  | .invalidateClient clientId => (assemblies.erase clientId, [])

/-- The envelopes that were observed, in order. -/
def observed (inputs : List (SegmentInput Value)) : List (ClientEnvelope Value) :=
  inputs.filterMap fun
    | .observe _ envelope => some envelope
    | _ => none

/-! ## One chunk -/

/-- How many bytes a chunk may bring when so many are there. -/
def chunkCapacity (Value : Type) [WireCodec Value] (metadata : ClientSegmentMetadata)
    (length : ℕ) (text : Str) : ℕ :=
  min metadata.messageSizeBytes
    (length + WireCodec.decodedLenEstimate Value (asBytes text).length) - length

namespace ClientSegmentAssembly

/-- The assembly with the bytes of its next chunk. -/
def extend (assembly : ClientSegmentAssembly) (now : ℕ) (payload : List UInt8) :
    ClientSegmentAssembly :=
  { assembly with
    raw := assembly.raw ++ payload
    nextSegmentId := assembly.nextSegmentId + 1
    lastChunkSeenAt := now }

/-- What becomes of an assembly that has got its next chunk. -/
def extended (Value : Type) [WireCodec Value] (assembly : ClientSegmentAssembly) :
    AssemblyUpdate Value :=
  if assembly.nextSegmentId < assembly.metadata.segmentCount then .pending
  else if assembly.raw.length ≠ assembly.metadata.messageSizeBytes then .drop
  else
    match WireCodec.parseMessage assembly.raw with
    | some message => .complete message
    | none => .drop

variable {assembly : ClientSegmentAssembly} {text : Str} {payload : List UInt8}

theorem length_resize (bytes : List UInt8) (length : ℕ) : (resize bytes length).length = length := by
  simp only [resize, List.length_append, List.length_take, List.length_replicate]
  omega

theorem length_drop_buffer (text : Str) : ((assembly.buffer Value assembly.metadata text).drop
    assembly.raw.length).length =
      chunkCapacity Value assembly.metadata assembly.raw.length text := by
  rw [List.length_drop, buffer, length_resize, chunkCapacity]

theorem update_next (hbounded : assembly.raw.length ≤ assembly.metadata.messageSizeBytes)
    (hslice : WireCodec.decodeSlice Value text
      (chunkCapacity Value assembly.metadata assembly.raw.length text) = .ok payload) (now : ℕ) :
    (assembly.update now assembly.metadata assembly.nextSegmentId text :
      AssemblyUpdate Value × ClientSegmentAssembly) =
      ((assembly.extend now payload).extended Value, assembly.extend now payload) := by
  have hkept : (assembly.buffer Value assembly.metadata text).take assembly.raw.length =
      assembly.raw := by
    rw [buffer, resize, List.take_append_of_le_length (by simp; omega), List.take_take]
    simp [hbounded]
  unfold update
  rw [if_neg (lt_irrefl _), if_neg (by simp), if_neg (lt_irrefl _), if_neg (by simp)]
  dsimp only
  rw [length_drop_buffer, hslice]
  dsimp only
  -- the payload is written behind the bytes that are there
  rw [hkept, ← List.length_append, List.take_left]
  unfold extended extend
  split_ifs
  · rfl
  · rfl
  · cases (WireCodec.parseMessage (assembly.raw ++ payload) : Option (JsonRpcMessage Value)) with
    | none => rfl
    | some message => rfl

/-- A chunk drops an assembly, or leaves it as it is, or is its next one. -/
theorem update_eq_extend {result : AssemblyUpdate Value} {updated : ClientSegmentAssembly}
    {now segmentId : ℕ} {metadata : ClientSegmentMetadata}
    (hbounded : assembly.raw.length ≤ assembly.metadata.messageSizeBytes)
    (h : assembly.update now metadata segmentId text = (result, updated)) :
    (result = .drop ∧ updated.streamId = assembly.streamId) ∨
      ((result = .ignore ∨ result = .pending) ∧ updated = assembly) ∨
      ∃ payload, metadata = assembly.metadata ∧ segmentId = assembly.nextSegmentId ∧
        WireCodec.decodeSlice Value text
          (chunkCapacity Value assembly.metadata assembly.raw.length text) = .ok payload ∧
        result = (assembly.extend now payload).extended Value ∧
        updated = assembly.extend now payload := by
  have hupdate := h
  unfold update at h
  split_ifs at h with hstale hmetadata hseen horder
  · cases h
    exact .inr (.inl ⟨.inl rfl, rfl⟩)
  · cases h
    exact .inl ⟨rfl, rfl⟩
  · cases h
    exact .inr (.inl ⟨.inr rfl, rfl⟩)
  · cases h
    exact .inl ⟨rfl, rfl⟩
  · obtain rfl : assembly.metadata = metadata := not_not.mp hmetadata
    obtain rfl : segmentId = assembly.nextSegmentId := not_not.mp horder
    dsimp only at h
    rw [length_drop_buffer] at h
    cases hslice : WireCodec.decodeSlice Value text
        (chunkCapacity Value assembly.metadata assembly.raw.length text) with
    | error err =>
      rw [hslice] at h
      cases h
      exact .inl ⟨rfl, rfl⟩
    | ok payload =>
      rw [update_next hbounded hslice] at hupdate
      cases hupdate
      exact .inr (.inr ⟨payload, rfl, rfl, rfl, rfl, rfl⟩)

/-- The next chunk does not exceed the declared size. -/
theorem length_append_le {metadata : ClientSegmentMetadata} {raw : List UInt8}
    (hbounded : raw.length ≤ metadata.messageSizeBytes)
    (hslice : WireCodec.decodeSlice Value text (chunkCapacity Value metadata raw.length text) =
      .ok payload) : (raw ++ payload).length ≤ metadata.messageSizeBytes := by
  have hfits := (WireCodec.decodeSlice_ok _ _ _ hslice).2
  rw [chunkCapacity] at hfits
  rw [List.length_append]
  omega

end ClientSegmentAssembly

/-- What the reassembler asks of the metadata of a message. -/
def ClientSegmentMetadata.Valid (metadata : ClientSegmentMetadata) : Prop :=
  0 < metadata.segmentCount ∧ metadata.segmentCount ≤ remoteControlSegmentCountMax ∧
    0 < metadata.messageSizeBytes ∧ metadata.messageSizeBytes ≤ remoteControlReassembledMaxBytes

variable (clientId : ClientId) (streamId : StreamId) (metadata : ClientSegmentMetadata)
  (segmentId : ℕ)

/-- The envelope of a chunk. -/
def chunkEnvelope (text : Str) (cursor : Option Str) : ClientEnvelope Value :=
  ⟨.clientMessageChunk segmentId metadata.segmentCount metadata.messageSizeBytes text, clientId,
    some streamId, some metadata.seqId, cursor⟩

/-! ## What an assembly has collected -/

/-- The envelope is chunk `segmentId` of the message with this metadata. -/
def IsSegment (payload : List UInt8) (envelope : ClientEnvelope Value) : Prop :=
  envelope.clientId = clientId ∧ envelope.streamId = some streamId ∧
    envelope.seqId = some metadata.seqId ∧ ∃ text, WireCodec.decode Value text = some payload ∧
      envelope.event = .clientMessageChunk segmentId metadata.segmentCount
        metadata.messageSizeBytes text

/-- The bytes are the payloads of the first `count` chunks, in order, which were all seen. -/
def Collected (seen : List (ClientEnvelope Value)) (clientId : ClientId) (streamId : StreamId)
    (metadata : ClientSegmentMetadata) (count : ℕ) (raw : List UInt8) : Prop :=
  ∃ chunks : List (ClientEnvelope Value × List UInt8),
    (chunks.map Prod.fst).Sublist seen ∧ chunks.length = count ∧
      raw = (chunks.map Prod.snd).flatten ∧
      ∀ segmentId chunk, chunks[segmentId]? = some chunk →
        IsSegment clientId streamId metadata segmentId chunk.2 chunk.1

namespace Collected

variable {seen seen' : List (ClientEnvelope Value)} {clientId : ClientId} {streamId : StreamId}
  {metadata : ClientSegmentMetadata} {count : ℕ} {raw payload : List UInt8}
  {envelope : ClientEnvelope Value}

theorem mono (h : Collected seen clientId streamId metadata count raw)
    (hseen : seen.Sublist seen') : Collected seen' clientId streamId metadata count raw := by
  obtain ⟨chunks, hsublist, hlength, hraw, hsegments⟩ := h
  exact ⟨chunks, hsublist.trans hseen, hlength, hraw, hsegments⟩

/-- The next chunk is added at the end. -/
theorem concat (h : Collected seen clientId streamId metadata count raw)
    (henvelope : IsSegment clientId streamId metadata count payload envelope) :
    Collected (seen ++ [envelope]) clientId streamId metadata (count + 1) (raw ++ payload) := by
  obtain ⟨chunks, hsublist, rfl, rfl, hsegments⟩ := h
  refine ⟨chunks ++ [(envelope, payload)], ?_, by simp, by simp, ?_⟩
  · rw [List.map_append]
    exact hsublist.append (List.Sublist.refl _)
  · intro segmentId chunk hchunk
    rcases lt_trichotomy segmentId chunks.length with hlt | rfl | hgt
    · rw [List.getElem?_append_left hlt] at hchunk
      exact hsegments segmentId chunk hchunk
    · rw [List.getElem?_append_right (le_refl _)] at hchunk
      obtain rfl : (envelope, payload) = chunk := by simpa using hchunk
      exact henvelope
    · rw [List.getElem?_eq_none (by simp; omega)] at hchunk
      cases hchunk

end Collected

/-- What holds of every assembly. -/
structure ClientSegmentAssembly.Sound (seen : List (ClientEnvelope Value)) (clientId : ClientId)
    (assembly : ClientSegmentAssembly) : Prop where
  collected : Collected seen clientId assembly.streamId assembly.metadata assembly.nextSegmentId
    assembly.raw
  bounded : assembly.raw.length ≤ assembly.metadata.messageSizeBytes
  limited : assembly.metadata.messageSizeBytes ≤ remoteControlReassembledMaxBytes

/-! ## What the reassembler keeps -/

namespace Assemblies

variable {assemblies assemblies' : Assemblies} {clientId : ClientId} {streamId : StreamId}
  {assembly : ClientSegmentAssembly} {seen seen' : List (ClientEnvelope Value)} {moment : Moment}
  {envelope : ClientEnvelope Value} {A A' : ClientId → ClientSegmentAssembly → Prop}

/-- Eviction only removes assemblies, and it makes room. -/
theorem evictWhileFull_spec {fuel : ℕ} (hfuel : assemblies.entries.length ≤ fuel) :
    (evictWhileFull moment fuel assemblies).entries.length < remoteControlSegmentAssemblyMaxCount ∧
      ∀ clientId assembly,
        (evictWhileFull moment fuel assemblies).lookup clientId = some assembly →
          assemblies.lookup clientId = some assembly := by
  induction fuel generalizing assemblies with
  | zero =>
    refine ⟨?_, fun _ _ h => h⟩
    show assemblies.entries.length < remoteControlSegmentAssemblyMaxCount
    rw [remoteControlSegmentAssemblyMaxCount]
    omega
  | succ fuel ih =>
    unfold evictWhileFull
    split_ifs with hfull
    · cases hmin : (moment.iterate assemblies.entries).argmin
          fun entry => entry.2.lastChunkSeenAt with
      | none =>
        -- a full map has an assembly to evict
        have hnil := (List.argmin_eq_none.mp hmin) ▸ moment.perm assemblies.entries
        have hempty := hnil.length_eq
        rw [remoteControlSegmentAssemblyMaxCount] at hfull
        simp only [List.length_nil] at hempty
        omega
      | some entry =>
        have hentry := (moment.perm assemblies.entries).mem_iff.mp (List.argmin_mem hmin)
        have hmem : entry.1 ∈ assemblies := List.mem_map.mpr ⟨entry, hentry, rfl⟩
        have hlength := length_erase_of_mem hmem
        obtain ⟨hroom, hlookup⟩ := @ih (assemblies.erase entry.1) (by omega)
        exact ⟨hroom, fun clientId assembly h => lookup_of_lookup_erase (hlookup _ _ h)⟩
    · exact ⟨by omega, fun _ _ h => h⟩

/-- Every assembly meets the condition. -/
def All (A : ClientId → ClientSegmentAssembly → Prop) (assemblies : Assemblies) : Prop :=
  ∀ clientId assembly, assemblies.lookup clientId = some assembly → A clientId assembly

namespace All

variable (h : All A assemblies)
include h

/-- Removing assemblies does not matter. -/
theorem of_lookup (hlookup : ∀ clientId assembly, assemblies'.lookup clientId = some assembly →
    assemblies.lookup clientId = some assembly) : All A assemblies' := by
  intro clientId assembly hfound
  exact h clientId assembly (hlookup clientId assembly hfound)

theorem imp (himp : ∀ clientId assembly, A clientId assembly → A' clientId assembly) :
    All A' assemblies :=
  fun clientId assembly hfound => himp clientId assembly (h clientId assembly hfound)

theorem removeAssembly (clientId : ClientId) (streamId : StreamId) :
    All A (assemblies.removeAssembly clientId streamId) := by
  unfold Assemblies.removeAssembly
  split_ifs
  · exact h.of_lookup fun _ _ => lookup_of_lookup_erase
  · exact h

theorem insert (hassembly : A clientId assembly) : All A (assemblies.insert clientId assembly) := by
  intro other found hlookup
  rcases lookup_insert_cases hlookup with ⟨rfl, rfl⟩ | ⟨-, hold⟩
  · exact hassembly
  · exact h other found hold

/-- An assembly that is dropped leaves the others. -/
theorem removeAssembly_insert (hstream : assembly.streamId = streamId) :
    All A (Assemblies.removeAssembly (assemblies.insert clientId assembly) clientId streamId) := by
  intro other found hlookup
  rw [Assemblies.removeAssembly, if_pos (by simp [hstream])] at hlookup
  by_cases heq : other = clientId
  · rw [heq, AList.lookup_erase] at hlookup
    cases hlookup
  · rw [AList.lookup_erase_ne heq, AList.lookup_insert_ne heq] at hlookup
    exact h other found hlookup

/-- The assembly for a chunk is one of the stream of the chunk. -/
theorem openAssembly {metadata : ClientSegmentMetadata} {opened : Assemblies}
    (hfresh : A clientId (.start streamId metadata moment.now))
    (hopen : assemblies.openAssembly moment clientId streamId metadata = (assembly, opened)) :
    All A opened ∧ opened.lookup clientId = some assembly ∧ assembly.streamId = streamId := by
  unfold Assemblies.openAssembly at hopen
  cases hlookup : assemblies.lookup clientId with
  | none =>
    rw [hlookup] at hopen
    cases hopen
    obtain ⟨-, hkept⟩ := @evictWhileFull_spec assemblies moment _ (le_refl _)
    exact ⟨(h.of_lookup hkept).insert hfresh, AList.lookup_insert _, rfl⟩
  | some found =>
    rw [hlookup] at hopen
    dsimp only at hopen
    split_ifs at hopen with hstream
    · cases hopen
      exact ⟨h.insert hfresh, AList.lookup_insert _, rfl⟩
    · cases hopen
      exact ⟨h, hlookup, not_not.mp hstream⟩

open ClientSegmentAssembly

/-- One envelope: a condition that the next chunk of an assembly keeps holds of all assemblies
afterwards, and of one that has got all its chunks if a message is forwarded for a chunk. -/
theorem observe (A' : ClientId → ClientSegmentAssembly → Prop) (moment : Moment)
    (envelope : ClientEnvelope Value)
    (himp : ∀ clientId assembly, A clientId assembly → A' clientId assembly)
    (hbounded : ∀ clientId assembly, A clientId assembly →
      assembly.raw.length ≤ assembly.metadata.messageSizeBytes)
    (hfresh : ∀ streamId metadata, metadata.Valid →
      A envelope.clientId (.start streamId metadata moment.now))
    (hnext : ∀ assembly text payload, A envelope.clientId assembly →
      envelope = chunkEnvelope envelope.clientId assembly.streamId assembly.metadata
        assembly.nextSegmentId text envelope.cursor → text ≠ [] →
      WireCodec.decodeSlice Value text
        (chunkCapacity Value assembly.metadata assembly.raw.length text) = .ok payload →
      A' envelope.clientId (assembly.extend moment.now payload)) :
    All A' (assemblies.observe moment envelope).2 ∧
      ∀ forwarded, envelope.event.isChunk = true →
        (assemblies.observe moment envelope).1 = .forward forwarded →
          ∃ assembly message, A' envelope.clientId assembly ∧
            envelope.streamId = some assembly.streamId ∧
            envelope.seqId = some assembly.metadata.seqId ∧
            assembly.nextSegmentId = assembly.metadata.segmentCount ∧
            assembly.raw.length = assembly.metadata.messageSizeBytes ∧
            WireCodec.parseMessage assembly.raw = some message ∧
            forwarded = { envelope with event := .clientMessage message } := by
  have hkept := h.imp himp
  unfold Assemblies.observe
  split
  next segmentId segmentCount messageSizeBytes text hevent =>
    split
    next seqId streamId hseq hstream =>
      dsimp only
      split_ifs with hignore hinvalid
      · exact ⟨hkept, fun _ _ h => nomatch h⟩
      · exact ⟨hkept.removeAssembly _ _, fun _ _ h => nomatch h⟩
      · push Not at hinvalid
        obtain ⟨hcount, hcountMax, hsegment, hsize, hsizeMax, htext⟩ := hinvalid
        rcases hopen : assemblies.openAssembly moment envelope.clientId streamId
          ⟨seqId, segmentCount, messageSizeBytes⟩ with ⟨assembly, opened⟩
        rcases hupdate : (assembly.update moment.now ⟨seqId, segmentCount, messageSizeBytes⟩
          segmentId text : AssemblyUpdate Value × ClientSegmentAssembly) with ⟨result, updated⟩
        obtain ⟨hopened, hlookup, rfl⟩ := h.openAssembly (hfresh streamId _
          ⟨Nat.pos_of_ne_zero hcount, hcountMax, Nat.pos_of_ne_zero hsize, hsizeMax⟩) hopen
        have hassembly := hopened _ _ hlookup
        rcases update_eq_extend (hbounded _ _ hassembly) hupdate with
          ⟨rfl, hstreams⟩ | ⟨rfl | rfl, rfl⟩ | ⟨payload, hmetadata, rfl, hslice, rfl, rfl⟩
        · exact ⟨(hopened.imp himp).removeAssembly_insert hstreams, fun _ _ h => nomatch h⟩
        · exact ⟨(hopened.imp himp).insert (himp _ _ hassembly), fun _ _ h => nomatch h⟩
        · exact ⟨(hopened.imp himp).insert (himp _ _ hassembly), fun _ _ h => nomatch h⟩
        · have henvelope : envelope = chunkEnvelope envelope.clientId assembly.streamId
              assembly.metadata assembly.nextSegmentId text envelope.cursor := by
            obtain ⟨event, clientId, stream, seq, cursor⟩ := envelope
            dsimp only at hevent hseq hstream
            rw [hevent, hseq, hstream, chunkEnvelope, ← hmetadata]
          have hextended := hnext assembly text payload hassembly henvelope htext hslice
          have hinsert := (hopened.imp himp).insert hextended
          cases hresult : (assembly.extend moment.now payload).extended Value with
          | pending | ignore => exact ⟨hinsert, fun _ _ h => nomatch h⟩
          | drop => exact ⟨hinsert.removeAssembly _ _, fun _ _ h => nomatch h⟩
          | complete message =>
            refine ⟨hinsert.removeAssembly _ _, ?_⟩
            rintro forwarded - ⟨⟩
            -- the last chunk: all chunks are there
            unfold extended at hresult
            split_ifs at hresult with hmore hmismatch
            split at hresult <;> cases hresult
            have hlast := not_lt.mp hmore
            refine ⟨assembly.extend moment.now payload, message, hextended, hstream, ?_, ?_,
              not_not.mp hmismatch, ‹_›, rfl⟩
            · exact hseq.trans (congrArg (some ·.seqId) hmetadata)
            · have hnumber := congrArg ClientSegmentMetadata.segmentCount hmetadata
              dsimp only [extend] at hnumber hlast ⊢
              omega
    next => exact ⟨hkept, fun _ _ h => nomatch h⟩
  next hnot =>
    refine ⟨hkept, ?_⟩
    intro forwarded hchunk
    cases hevent : envelope.event with
    | clientMessageChunk segmentId segmentCount messageSizeBytes text =>
      exact absurd hevent (hnot segmentId segmentCount messageSizeBytes text)
    | _ =>
      rw [hevent] at hchunk
      cases hchunk

end All

/-! ## The number of assemblies -/

theorem length_removeAssembly_le (clientId : ClientId) (streamId : StreamId) :
    (assemblies.removeAssembly clientId streamId).entries.length ≤ assemblies.entries.length := by
  unfold removeAssembly
  split_ifs
  · exact length_erase_le assemblies clientId
  · exact le_refl _

theorem length_openAssembly_insert_le {metadata : ClientSegmentMetadata}
    (h : assemblies.entries.length ≤ remoteControlSegmentAssemblyMaxCount)
    (updated : ClientSegmentAssembly) :
    ((assemblies.openAssembly moment clientId streamId metadata).2.insert clientId
      updated).entries.length ≤ remoteControlSegmentAssemblyMaxCount := by
  unfold openAssembly
  cases hlookup : assemblies.lookup clientId with
  | none =>
    rw [length_insert_of_mem ((AList.mem_insert _).mpr (.inl rfl))]
    exact (length_insert_le _ _ _).trans (evictWhileFull_spec (le_refl _)).1
  | some found =>
    have hmem := mem_of_lookup hlookup
    dsimp only
    split_ifs
    · rw [length_insert_of_mem ((AList.mem_insert _).mpr (.inl rfl)), length_insert_of_mem hmem]
      exact h
    · rw [length_insert_of_mem hmem]
      exact h

theorem length_observe_le (h : assemblies.entries.length ≤ remoteControlSegmentAssemblyMaxCount)
    (moment : Moment) (envelope : ClientEnvelope Value) :
    (assemblies.observe moment envelope).2.entries.length ≤
      remoteControlSegmentAssemblyMaxCount := by
  unfold observe
  split
  · split
    · dsimp only
      split_ifs
      · exact h
      · exact (length_removeAssembly_le _ _).trans h
      · split
        · exact length_openAssembly_insert_le h _
        · exact length_openAssembly_insert_le h _
        · exact (length_removeAssembly_le _ _).trans (length_openAssembly_insert_le h _)
        · exact (length_removeAssembly_le _ _).trans (length_openAssembly_insert_le h _)
    · exact h
  · exact h

/-- Every assembly has collected chunks that were seen, and there are not too many. -/
structure Sound (seen : List (ClientEnvelope Value)) (assemblies : Assemblies) : Prop where
  assembly : ∀ clientId assembly, assemblies.lookup clientId = some assembly →
    assembly.Sound seen clientId
  room : assemblies.entries.length ≤ remoteControlSegmentAssemblyMaxCount

/-- The forwarded message was decoded from all chunks of one message, in order, which were all
seen. -/
def Reassembled (seen : List (ClientEnvelope Value)) (envelope forwarded : ClientEnvelope Value) :
    Prop :=
  ∃ streamId metadata raw message, envelope.streamId = some streamId ∧
    Collected seen envelope.clientId streamId metadata metadata.segmentCount raw ∧
    raw.length = metadata.messageSizeBytes ∧
    metadata.messageSizeBytes ≤ remoteControlReassembledMaxBytes ∧
    WireCodec.parseMessage raw = some message ∧
    envelope.seqId = some metadata.seqId ∧
    forwarded = { envelope with event := .clientMessage message }

/-- One envelope: the invariant is kept, and a message that is forwarded for a chunk was
reassembled. -/
theorem observe_sound (h : Sound seen assemblies) (moment : Moment)
    (envelope : ClientEnvelope Value) :
    Sound (seen ++ [envelope]) (assemblies.observe moment envelope).2 ∧
      ∀ forwarded, envelope.event.isChunk = true →
        (assemblies.observe moment envelope).1 = .forward forwarded →
          Reassembled (seen ++ [envelope]) envelope forwarded := by
  have hassemblies : All (fun clientId assembly => assembly.Sound seen clientId) assemblies :=
    h.assembly
  have hobserve := hassemblies.observe
    (fun clientId assembly => assembly.Sound (seen ++ [envelope]) clientId) moment envelope
    ?_ ?_ ?_ ?_
  · refine ⟨⟨hobserve.1, length_observe_le h.room moment envelope⟩, ?_⟩
    intro forwarded hchunk hforward
    obtain ⟨assembly, message, hsound, hstream, hseq, hlast, hlength, hparse, rfl⟩ :=
      hobserve.2 forwarded hchunk hforward
    exact ⟨assembly.streamId, assembly.metadata, assembly.raw, message, hstream,
      hlast ▸ hsound.collected, hlength, hsound.limited, hparse, hseq, rfl⟩
  · rintro clientId assembly ⟨hcollected, hbounded, hlimited⟩
    exact ⟨hcollected.mono (List.sublist_append_left _ _), hbounded, hlimited⟩
  · exact fun _ _ hsound => hsound.bounded
  · intro streamId metadata hvalid
    exact ⟨⟨[], List.nil_sublist _, rfl, rfl, by simp⟩, Nat.zero_le _, hvalid.2.2.2⟩
  · intro assembly text payload hsound henvelope htext hslice
    refine ⟨hsound.collected.concat ?_, ?_, hsound.limited⟩
    · rw [henvelope]
      exact ⟨rfl, rfl, rfl, text, (WireCodec.decodeSlice_ok _ _ _ hslice).1, rfl⟩
    · exact ClientSegmentAssembly.length_append_le hsound.bounded hslice

/-- What holds along every run of the reassembler. -/
theorem sound_after (inputs : List (SegmentInput Value)) :
    Sound (observed inputs) (Run.after segmentStep ∅ inputs) := by
  refine Run.invariant (P := fun past assemblies _ => Sound (observed past) assemblies) segmentStep
    ∅ ?_ ?_ inputs
  · refine ⟨?_, Nat.zero_le _⟩
    intro clientId assembly hlookup
    cases hlookup
  · intro past assemblies _ input h
    cases input with
    | observe moment envelope =>
      have hobserved : observed (past ++ [.observe moment envelope]) =
          observed past ++ [envelope] := by simp [observed]
      rw [hobserved]
      exact (observe_sound h moment envelope).1
    | invalidateStream clientId streamId =>
      have hobserved : observed (past ++ [.invalidateStream clientId streamId]) =
          observed past := by simp [observed]
      rw [hobserved]
      exact ⟨All.removeAssembly h.assembly clientId streamId,
        (length_removeAssembly_le clientId streamId).trans h.room⟩
    | invalidateClient clientId =>
      have hobserved : observed (past ++ [.invalidateClient clientId]) = observed past := by
        simp [observed]
      rw [hobserved]
      exact ⟨All.of_lookup h.assembly fun _ _ => lookup_of_lookup_erase,
        (length_erase_le _ clientId).trans h.room⟩

end Assemblies

open Assemblies

/-- After whatever envelopes and invalidations: no assembly holds more than the declared size of
its message, also while a chunk is decoded; there are at most so many assemblies; and a message
forwarded for a chunk was decoded from all chunks of one message. -/
theorem reassembler_sound (inputs : List (SegmentInput Value)) :
    (∀ clientId assembly,
        (Run.after segmentStep ∅ inputs : Assemblies).lookup clientId = some assembly →
          assembly.raw.length ≤ assembly.metadata.messageSizeBytes ∧
          ∀ text, (assembly.buffer Value assembly.metadata text).length ≤
            assembly.metadata.messageSizeBytes) ∧
      (Run.after segmentStep ∅ inputs : Assemblies).entries.length ≤
        remoteControlSegmentAssemblyMaxCount ∧
      ∀ moment envelope forwarded, envelope.event.isChunk = true →
        (Assemblies.observe moment (Run.after segmentStep ∅ inputs) envelope).1 =
            .forward forwarded →
          Assemblies.Reassembled (observed inputs ++ [envelope]) envelope forwarded := by
  have hsound := sound_after inputs
  refine ⟨?_, hsound.room, ?_⟩
  · intro clientId assembly hlookup
    refine ⟨(hsound.assembly clientId assembly hlookup).bounded, fun text => ?_⟩
    rw [ClientSegmentAssembly.buffer, ClientSegmentAssembly.length_resize]
    exact Nat.min_le_left _ _
  · intro moment envelope forwarded hchunk hforward
    exact (observe_sound hsound moment envelope).2 forwarded hchunk hforward

/-- A codec without an encoding: every text is its own payload and names a request. -/
@[reducible]
def plainCodec : WireCodec Unit where
  decodedLenEstimate length := length
  decode text := some (text.map fun c => c.toNat.toUInt8)
  decodeSlice text capacity :=
    if text.length ≤ capacity then .ok (text.map fun c => c.toNat.toUInt8)
    else .error .outputSliceTooSmall
  decodeSlice_ok := by
    intro text capacity bytes h
    split_ifs at h with hfits
    cases h
    exact ⟨rfl, by simpa using hfits⟩
  parseMessage bytes := some (.request (bytes.map fun b => Char.ofNat b.toNat) ())

/-- Two chunks are put together, with a duplicate of the first one between them. -/
theorem reassembler_sound_two_chunks :
    let _ : WireCodec Unit := plainCodec
    let moment : Moment := ⟨0, id, fun _ => List.Perm.refl _⟩
    let chunk := fun (segmentId : ℕ) (text : String) =>
      (⟨.clientMessageChunk segmentId 2 3 text.toList, ⟨"c".toList⟩, some ⟨"s".toList⟩, some 7,
        none⟩ : ClientEnvelope Unit)
    let inputs := [SegmentInput.observe moment (chunk 0 "ab"), .observe moment (chunk 0 "ab")]
    let forwarded : ClientEnvelope Unit :=
      { chunk 1 "c" with event := .clientMessage (.request "abc".toList ()) }
    (Assemblies.observe moment (Run.after segmentStep ∅ inputs) (chunk 1 "c")).1 =
        .forward forwarded ∧
      Reassembled (observed inputs ++ [chunk 1 "c"]) (chunk 1 "c") forwarded := by
  intro _ moment chunk inputs forwarded
  have hforward : (Assemblies.observe moment (Run.after segmentStep ∅ inputs) (chunk 1 "c")).1 =
      .forward forwarded := by decide
  exact ⟨hforward, (reassembler_sound inputs).2.2 moment (chunk 1 "c") forwarded rfl hforward⟩

end Codex.RemoteControl
