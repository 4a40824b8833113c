import Codex.RemoteControl.Reader

/-!
# Sending the chunks of a message again

An assembly remembers only the bytes.  Here it is compared with the chunks that it took:
the same chunks, sent again one after the other when no other message of the stream is
being collected, give the same bytes, and in the end the same message.
-/

namespace Codex.RemoteControl

open Text Bytes ClientSegmentAssembly WireCodec

variable {Value : Type} [WireCodec Value]

/-! ## The chunks that an assembly took -/

/-- The chunks of a message, each with its size on the wire, and the bytes they bring. -/
inductive Gathered (Value : Type) [WireCodec Value] (metadata : ClientSegmentMetadata) :
    List (Str × ℕ) → List UInt8 → Prop where
  | nil : Gathered Value metadata [] []
  | concat {chunks : List (Str × ℕ)} {raw payload : List UInt8} {text : Str} {wireSizeBytes : ℕ} :
      Gathered Value metadata chunks raw → text ≠ [] →
      wireSizeBytes ≤ remoteControlSegmentMaxBytes →
      decodeSlice Value text (chunkCapacity Value metadata raw.length text) = .ok payload →
      Gathered Value metadata (chunks ++ [(text, wireSizeBytes)]) (raw ++ payload)

theorem Gathered.length_le {metadata : ClientSegmentMetadata} {chunks : List (Str × ℕ)}
    {raw : List UInt8} (h : Gathered Value metadata chunks raw) :
    raw.length ≤ metadata.messageSizeBytes := by
  induction h with
  | nil => exact Nat.zero_le _
  | concat _ _ _ hslice ih => exact length_append_le ih hslice

variable (seen : List (ClientEnvelope Value × ℕ)) (clientId : ClientId) (streamId : StreamId)
  (metadata : ClientSegmentMetadata) (chunks : List (Str × ℕ))

/-- The chunks came in, each with its number and its size on the wire. -/
def CameIn : Prop :=
  ∀ segmentId chunk, chunks[segmentId]? = some chunk → ∃ cursor,
    (chunkEnvelope clientId streamId metadata segmentId chunk.1 cursor, chunk.2) ∈ seen

/-- The assembly took chunks that came in. -/
structure ClientSegmentAssembly.Took (assembly : ClientSegmentAssembly) (chunks : List (Str × ℕ)) :
    Prop where
  gathered : Gathered Value assembly.metadata chunks assembly.raw
  length_eq : chunks.length = assembly.nextSegmentId
  valid : assembly.metadata.Valid
  cameIn : CameIn seen clientId assembly.streamId assembly.metadata chunks

omit [WireCodec Value] in
theorem CameIn.mono {seen seen' : List (ClientEnvelope Value × ℕ)} {clientId : ClientId}
    {streamId : StreamId} {metadata : ClientSegmentMetadata} {chunks : List (Str × ℕ)}
    (h : CameIn seen clientId streamId metadata chunks) (hseen : seen ⊆ seen') :
    CameIn seen' clientId streamId metadata chunks := by
  intro segmentId chunk hchunk
  obtain ⟨cursor, hmem⟩ := h segmentId chunk hchunk
  exact ⟨cursor, hseen hmem⟩

/-- Every assembly took chunks that came in. -/
def Assemblies.Took (assemblies : Assemblies) : Prop :=
  ∀ clientId assembly, assemblies.lookup clientId = some assembly →
    ∃ chunks, assembly.Took seen clientId chunks

/-- All chunks of a message, which came in and bring the message. -/
structure Completed (message : JsonRpcMessage Value) : Prop where
  gathered : ∃ raw, Gathered Value metadata chunks raw ∧
    raw.length = metadata.messageSizeBytes ∧ parseMessage raw = some message
  length_eq : chunks.length = metadata.segmentCount
  valid : metadata.Valid
  cameIn : CameIn seen clientId streamId metadata chunks

namespace Assemblies.Took

variable {seen seen' : List (ClientEnvelope Value × ℕ)} {assemblies assemblies' : Assemblies}
  {wireSizeBytes : ℕ}

variable (h : Took seen assemblies)
include h

theorem mono (hseen : seen ⊆ seen') : Took seen' assemblies := by
  intro clientId assembly hlookup
  obtain ⟨chunks, htook⟩ := h clientId assembly hlookup
  exact ⟨chunks, htook.gathered, htook.length_eq, htook.valid, htook.cameIn.mono hseen⟩

/-- One envelope: the invariant is kept, and a message that is forwarded for a chunk has all its
chunks. -/
theorem observe (moment : Moment) (envelope : ClientEnvelope Value)
    (hwire : (clientMessageKey envelope).isSome = true →
      wireSizeBytes ≤ remoteControlSegmentMaxBytes) :
    Took (seen ++ [(envelope, wireSizeBytes)]) (assemblies.observe moment envelope).2 ∧
      ∀ forwarded, envelope.event.isChunk = true →
        (assemblies.observe moment envelope).1 = .forward forwarded →
          ∃ streamId metadata chunks message, envelope.streamId = some streamId ∧
            envelope.seqId = some metadata.seqId ∧ forwarded.event = .clientMessage message ∧
            Completed (seen ++ [(envelope, wireSizeBytes)]) envelope.clientId streamId metadata
              chunks message := by
  have hassemblies : All (fun clientId assembly => ∃ chunks, assembly.Took seen clientId chunks)
    assemblies := h
  have hobserve := hassemblies.observe (fun clientId assembly => ∃ chunks,
      assembly.Took (seen ++ [(envelope, wireSizeBytes)]) clientId chunks) moment envelope
    ?_ ?_ ?_ ?_
  · refine ⟨hobserve.1, ?_⟩
    intro forwarded hchunk hforward
    obtain ⟨assembly, message, ⟨chunks, htook⟩, hstream, hseq, hlast, hlength, hparse, rfl⟩ :=
      hobserve.2 forwarded hchunk hforward
    exact ⟨assembly.streamId, assembly.metadata, chunks, message, hstream, hseq, rfl,
      ⟨assembly.raw, htook.gathered, hlength, hparse⟩, htook.length_eq.trans hlast, htook.valid,
      htook.cameIn⟩
  · rintro clientId assembly ⟨chunks, htook⟩
    exact ⟨chunks, htook.gathered, htook.length_eq, htook.valid,
      htook.cameIn.mono (List.subset_append_left _ _)⟩
  · rintro clientId assembly ⟨chunks, htook⟩
    exact htook.gathered.length_le
  · intro streamId metadata hvalid
    refine ⟨[], Gathered.nil, rfl, hvalid, ?_⟩
    rintro segmentId chunk ⟨⟩
  · rintro assembly text payload ⟨chunks, htook⟩ henvelope htext hslice
    have hkey : (clientMessageKey envelope).isSome = true := by
      rw [henvelope]
      rfl
    refine ⟨chunks ++ [(text, wireSizeBytes)], htook.gathered.concat htext (hwire hkey) hslice, ?_,
      htook.valid, ?_⟩
    · rw [List.length_append, htook.length_eq]
      rfl
    · rw [henvelope, ← htook.length_eq]
      intro segmentId chunk hchunk
      rcases lt_trichotomy segmentId chunks.length with hlt | rfl | hgt
      · rw [List.getElem?_append_left hlt] at hchunk
        obtain ⟨cursor, hseen⟩ := htook.cameIn segmentId chunk hchunk
        exact ⟨cursor, List.mem_append_left _ hseen⟩
      · rw [List.getElem?_append_right (le_refl _)] at hchunk
        obtain rfl : (text, wireSizeBytes) = chunk := by simpa using hchunk
        exact ⟨_, List.mem_append_right _ List.mem_cons_self⟩
      · rw [List.getElem?_eq_none (by simp; omega)] at hchunk
        cases hchunk

end Assemblies.Took

/-! ## The chunks again -/

/-- The next chunk of the message is chunk `segmentId`, and the bytes before it are there. -/
def Assemblies.Awaits (assemblies : Assemblies) (clientId : ClientId) (streamId : StreamId)
    (metadata : ClientSegmentMetadata) (segmentId : ℕ) (raw : List UInt8) : Prop :=
  (segmentId = 0 ∧ raw = [] ∧ ∀ assembly, assemblies.lookup clientId = some assembly →
      assembly.streamId ≠ streamId) ∨
    ∃ lastChunkSeenAt, assemblies.lookup clientId =
      some ⟨streamId, metadata, raw, segmentId, lastChunkSeenAt⟩

namespace Assemblies.Awaits

variable {assemblies : Assemblies} {clientId : ClientId} {streamId : StreamId}
  {metadata : ClientSegmentMetadata} {segmentId : ℕ} {raw payload : List UInt8} {text : Str}

theorem shouldIgnoreChunk_eq (h : assemblies.Awaits clientId streamId metadata segmentId raw) :
    assemblies.shouldIgnoreChunk clientId streamId metadata.seqId segmentId = false := by
  unfold Assemblies.shouldIgnoreChunk
  rcases h with ⟨-, -, hother⟩ | ⟨lastChunkSeenAt, hlookup⟩
  · cases hlookup : assemblies.lookup clientId with
    | none => rfl
    | some assembly => simp [hother assembly hlookup]
  · simp [hlookup]

/-- The chunk goes to an assembly of its message that has the bytes before it. -/
theorem openAssembly_eq (h : assemblies.Awaits clientId streamId metadata segmentId raw)
    (moment : Moment) : ∃ lastChunkSeenAt opened,
      assemblies.openAssembly moment clientId streamId metadata =
        (⟨streamId, metadata, raw, segmentId, lastChunkSeenAt⟩, opened) := by
  unfold Assemblies.openAssembly
  rcases h with ⟨rfl, rfl, hother⟩ | ⟨lastChunkSeenAt, hlookup⟩
  · cases hlookup : assemblies.lookup clientId with
    | none => exact ⟨_, _, rfl⟩
    | some assembly =>
      dsimp only
      rw [if_pos (hother assembly hlookup)]
      exact ⟨_, _, rfl⟩
  · rw [hlookup]
    dsimp only
    rw [if_neg (by simp)]
    exact ⟨_, _, rfl⟩

variable (Value) in
/-- The next chunk is kept, or completes the message. -/
theorem observe (h : assemblies.Awaits clientId streamId metadata segmentId raw)
    (hvalid : metadata.Valid) (hsegment : segmentId < metadata.segmentCount)
    (hraw : raw.length ≤ metadata.messageSizeBytes) (htext : text ≠ [])
    (hslice : decodeSlice Value text (chunkCapacity Value metadata raw.length text) =
      .ok payload) (moment : Moment) (cursor : Option Str) :
    let envelope : ClientEnvelope Value :=
      chunkEnvelope clientId streamId metadata segmentId text cursor
    (segmentId + 1 < metadata.segmentCount → ∃ assemblies' : Assemblies,
      assemblies.observe moment envelope = (.pending, assemblies') ∧
        assemblies'.Awaits clientId streamId metadata (segmentId + 1) (raw ++ payload)) ∧
    ∀ message, segmentId + 1 = metadata.segmentCount →
      (raw ++ payload).length = metadata.messageSizeBytes →
      parseMessage (raw ++ payload) = some message →
      (assemblies.observe moment envelope).1 =
        .forward { envelope with event := .clientMessage message } := by
  obtain ⟨hcount, hcountMax, hsize, hsizeMax⟩ := hvalid
  obtain ⟨lastChunkSeenAt, opened, hopen⟩ := h.openAssembly_eq moment
  let next : ClientSegmentAssembly :=
    ⟨streamId, metadata, raw ++ payload, segmentId + 1, moment.now⟩
  have hupdate : update ⟨streamId, metadata, raw, segmentId, lastChunkSeenAt⟩
      moment.now metadata segmentId text = (extended Value next, next) :=
    update_next hraw hslice moment.now
  have hguard : ¬ (metadata.segmentCount = 0 ∨ remoteControlSegmentCountMax < metadata.segmentCount ∨
      metadata.segmentCount ≤ segmentId ∨ metadata.messageSizeBytes = 0 ∨
      remoteControlReassembledMaxBytes < metadata.messageSizeBytes ∨ text = []) := by
    push Not
    exact ⟨hcount.ne', hcountMax, hsegment, hsize.ne', hsizeMax, htext⟩
  intro envelope
  refine ⟨?_, ?_⟩
  · intro hmore
    have hpending : extended Value next = .pending := if_pos hmore
    rw [hpending] at hupdate
    refine ⟨opened.insert clientId next, ?_, .inr ⟨moment.now, AList.lookup_insert _⟩⟩
    simp only [Assemblies.observe, envelope, chunkEnvelope, h.shouldIgnoreChunk_eq, if_neg hguard,
      hopen, hupdate, Bool.false_eq_true, if_false]
  · intro message hlast hlength hparse
    have hcomplete : extended Value next = .complete message := by
      dsimp only [extended, next]
      rw [if_neg (by omega), if_neg (not_not.mpr hlength), hparse]
    rw [hcomplete] at hupdate
    simp only [Assemblies.observe, envelope, chunkEnvelope, h.shouldIgnoreChunk_eq, if_neg hguard,
      hopen, hupdate, Bool.false_eq_true, if_false]

end Assemblies.Awaits

end Codex.RemoteControl
