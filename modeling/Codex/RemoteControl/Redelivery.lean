import Codex.RemoteControl.Attempts

/-!
# At most once, and again after a failure

Between two openings of a connection the sequence numbers that are forwarded increase, so
no message is forwarded twice.  A message that could not be forwarded is not recorded.
When it is sent again it is forwarded, unless something newer has been forwarded since, or
its connection has been closed.

`inbound_delivery` has both parts, for plain messages and for those in chunks; a message that a
newer one has overtaken is `overtaken_not_forwarded`.
-/

namespace Codex.RemoteControl

open Text ClientTracker InboundLog WebsocketState List

variable {Value : Type} [WireCodec Value] {seen : List (ClientEnvelope Value × ℕ)}
  {moment : Moment} {envelope : ClientEnvelope Value} {wireSizeBytes : ℕ}

/-! ## A message that could not be forwarded -/

/-- The connection is open and the number is above all that were forwarded over it. -/
def IsNewOn (key : ClientId × StreamId) (n : ℕ) (log : List (InboundLog Value)) : Prop :=
  isOpen key log = true ∧ ∀ last ∈ (since key log).getLast?, last < n

section IsNewOn

omit [WireCodec Value]

variable {tracker : ClientTracker} {log : List (InboundLog Value)} {key : ClientId × StreamId}
  {n : ℕ}

theorem IsNewOn.append {more : List (InboundLog Value)} (h : IsNewOn key n log)
    (hclosed : ∀ id, closed key id ∉ more)
    (hforwarded : ∀ m id message, forwarded key (some m) id message ∈ more → m < n) :
    IsNewOn key n (log ++ more) :=
  ⟨isOpen_append h.1 hclosed, getLast?_since_append_lt h.2 hforwarded⟩

theorem isNewOn_iff (h : Delivery tracker log) :
    IsNewOn key n log ↔ (∃ client, tracker.clients.lookup key = some client) ∧
      tracker.isReplay key (some n) = false := by
  unfold IsNewOn
  rw [← h.isOpen_eq key]
  cases hlookup : tracker.clients.lookup key with
  | none => simp
  | some client =>
    have hlast := h.last_eq key client hlookup
    rw [← hlast]
    simp [isReplay, hlookup, Option.any_eq_false]

end IsNewOn

variable {message : JsonRpcMessage Value}

/-- The reader stops at a message that could not be forwarded, and nothing is recorded. -/
theorem readerStep_failed {reader : Reader} {attempt : Attempt} {streamId : StreamId}
    {key : ClientId × StreamId} {seqId : Option ℕ} (hstream : envelope.streamId = some streamId)
    (h : .failed key seqId message ∈
      (readerStep reader (.message moment attempt envelope wireSizeBytes)).2) :
    let handled := reader.clientTracker.handleClientMessage attempt key false seqId message
    streamId.text ≠ [] ∧
      (reader.state.observeClientMessage moment envelope wireSizeBytes).1 =
        .forward { envelope with event := .clientMessage message } ∧
      readerStep reader (.message moment attempt envelope wireSizeBytes) =
        (⟨handled.tracker, (reader.state.observeClientMessage moment envelope wireSizeBytes).2⟩,
          handled.log) ∧
      .failed key seqId message ∈ handled.log := by
  rcases hobserved : reader.state.observeClientMessage moment envelope wireSizeBytes with
    ⟨observation, state⟩
  by_cases hforward : ∃ forwarded, observation = .forward forwarded
  · obtain ⟨forwarded, rfl⟩ := hforward
    have hforwarded := observeClientMessage_forward (congrArg Prod.fst hobserved)
    have hforwardedStream : forwarded.streamId = some streamId := by
      rw [hforwarded]
      exact hstream
    rw [readerStep_of_forward hobserved] at h ⊢
    -- the failure is reported by the tracker
    have hlog : .failed key seqId message ∈
        (reader.clientTracker.handleMessage attempt forwarded).log := by
      unfold Reader.deliver at h
      dsimp only at h
      split_ifs at h
      · exact h
      · rcases mem_append.mp h with hlog | hrecord
        · exact hlog
        · rcases mem_recordClientMessageDelivery hrecord with ⟨_, _, -, hentry⟩ | ⟨_, _, _, hentry⟩
          all_goals cases hentry
    obtain ⟨hevent, hnonempty, rfl, rfl⟩ := handleMessage_failed hforwardedStream hlog
    rw [handleMessage_clientMessage hevent hforwardedStream hnonempty] at hlog
    have hfails := (handleClientMessage_failed hlog).1
    refine ⟨hnonempty, ?_, ?_, hlog⟩
    · rw [← hevent, ← hforwarded]
    · unfold Reader.deliver
      dsimp only
      rw [handleMessage_clientMessage hevent hforwardedStream hnonempty, hfails.ok_eq,
        if_pos (by simp)]
  · rw [readerStep_of_not_forward hobserved (not_exists.mp hforward)] at h
    cases h

/-! ## Sending it again -/

variable (moments : ℕ → Moment) (attempts : ℕ → Attempt)
  (envelopes : List (ClientEnvelope Value × ℕ))

/-- The envelopes again, one after the other. -/
def resend : List (ReaderInput Value) :=
  envelopes.zipIdx.map fun sent =>
    .message (moments sent.2) (attempts sent.2) sent.1.1 sent.1.2

omit [WireCodec Value] in
theorem resend_concat (last : ClientEnvelope Value × ℕ) :
    resend moments attempts (envelopes ++ [last]) = resend moments attempts envelopes ++
      [.message (moments envelopes.length) (attempts envelopes.length) last.1 last.2] := by
  simp [resend, zipIdx_append]

/-- The message opens a connection, or is new on an open one. -/
def Welcomes (tracker : ClientTracker) (key : ClientId × StreamId) (n : ℕ)
    (message : JsonRpcMessage Value) : Prop :=
  message.startsConnection = true ∨
    (∃ client, tracker.clients.lookup key = some client) ∧ tracker.isReplay key (some n) = false

section Welcome

variable {reader : Reader} {attempt : Attempt} {streamId : StreamId} {n : ℕ}
  (hevent : envelope.event = .clientMessage message) (hstream : envelope.streamId = some streamId)
  (hseq : envelope.seqId = some n) (hnonempty : streamId.text ≠ []) (hsucceeds : attempt.Succeeds)
  (hwelcome : Welcomes reader.clientTracker (envelope.clientId, streamId) n message)
include hevent hstream hseq hnonempty hsucceeds hwelcome

omit [WireCodec Value] in
/-- The tracker forwards a message that is welcome. -/
theorem Reader.deliver_forwarded
    {clientMessageKey : Option ((ClientId × Option StreamId) × ℕ)} :
    ∃ id, .forwarded (envelope.clientId, streamId) (some n) id message ∈
      (reader.deliver attempt envelope clientMessageKey).2 := by
  obtain ⟨hok, id, hlog⟩ := handleClientMessage_forwarded hsucceeds hwelcome
  refine ⟨id, ?_⟩
  unfold Reader.deliver
  dsimp only
  rw [handleMessage_clientMessage hevent hstream hnonempty, hseq, hok]
  exact mem_append_left _ hlog

theorem readerStep_whole :
    ∃ id, .forwarded (envelope.clientId, streamId) (some n) id message ∈
      (readerStep reader (.message moment attempt envelope wireSizeBytes)).2 := by
  have hobserved : reader.state.observeClientMessage moment envelope wireSizeBytes =
      (.forward envelope, reader.state) := by
    simp [observeClientMessage, clientMessageKey, shouldIgnoreChunk, Assemblies.observe, hevent]
  rw [readerStep_of_forward hobserved]
  exact Reader.deliver_forwarded hevent hstream hseq hnonempty hsucceeds hwelcome

end Welcome

/-- The envelopes of the chunks of a message. -/
def chunkEnvelopes (clientId : ClientId) (streamId : StreamId) (metadata : ClientSegmentMetadata)
    (cursors : ℕ → Option Str) (chunks : List (Str × ℕ)) : List (ClientEnvelope Value × ℕ) :=
  chunks.zipIdx.map fun chunk =>
    (chunkEnvelope clientId streamId metadata chunk.2 chunk.1.1 (cursors chunk.2), chunk.1.2)

section Chunks

variable {reader : Reader} {clientId : ClientId} {streamId : StreamId}
  {metadata : ClientSegmentMetadata} {chunks : List (Str × ℕ)} {raw : List UInt8}
  (cursors : ℕ → Option Str) (moments : ℕ → Moment) (attempts : ℕ → Attempt)

omit [WireCodec Value] in
theorem chunkEnvelopes_concat (chunk : Str × ℕ) :
    (chunkEnvelopes clientId streamId metadata cursors (chunks ++ [chunk]) :
      List (ClientEnvelope Value × ℕ)) =
      chunkEnvelopes clientId streamId metadata cursors chunks ++
        [(chunkEnvelope clientId streamId metadata chunks.length chunk.1 (cursors chunks.length),
          chunk.2)] := by
  simp [chunkEnvelopes, zipIdx_append]

omit [WireCodec Value] in
theorem length_chunkEnvelopes :
    (chunkEnvelopes clientId streamId metadata cursors chunks :
      List (ClientEnvelope Value × ℕ)).length = chunks.length := by
  simp [chunkEnvelopes]

/-- A chunk that is awaited gets to the reassembler. -/
theorem observeClientMessage_chunk {state : WebsocketState} {segmentId : ℕ} {text : Str}
    {cursor : Option Str}
    (hnew : state.isCompleted (clientId, some streamId) metadata.seqId = false)
    (hawaits : state.clientSegmentReassembler.Awaits clientId streamId metadata segmentId raw)
    (hwire : wireSizeBytes ≤ remoteControlSegmentMaxBytes) :
    let envelope : ClientEnvelope Value :=
      chunkEnvelope clientId streamId metadata segmentId text cursor
    state.observeClientMessage moment envelope wireSizeBytes =
      ((state.clientSegmentReassembler.observe moment envelope).1,
        { state with clientSegmentReassembler :=
          (state.clientSegmentReassembler.observe moment envelope).2 }) := by
  intro envelope
  simp only [observeClientMessage, clientMessageKey,
    shouldIgnoreChunk, envelope, chunkEnvelope, Option.any_some, hnew,
    hawaits.shouldIgnoreChunk_eq, Bool.false_eq_true, if_false, Option.isSome_some, Bool.true_and,
    decide_eq_true_eq, if_neg (not_lt.mpr hwire)]

/-- All chunks but the last are collected. -/
theorem resend_pending (hgathered : Gathered Value metadata chunks raw) (hvalid : metadata.Valid)
    (hlength : chunks.length < metadata.segmentCount)
    (hnew : reader.state.isCompleted (clientId, some streamId) metadata.seqId = false)
    (hfree : reader.state.clientSegmentReassembler.Awaits clientId streamId metadata 0 []) :
    let reached := Run.after readerStep reader (resend moments attempts
      (chunkEnvelopes clientId streamId metadata cursors chunks : List (ClientEnvelope Value × ℕ)))
    reached.clientTracker = reader.clientTracker ∧
      reached.state.isCompleted (clientId, some streamId) metadata.seqId = false ∧
      reached.state.clientSegmentReassembler.Awaits clientId streamId metadata chunks.length raw := by
  induction hgathered with
  | nil => exact ⟨rfl, hnew, hfree⟩
  | concat hgathered htext hwire hslice ih =>
    rename_i chunks raw payload text wireSizeBytes
    rw [length_append] at hlength
    obtain ⟨htracker, hstill, hawaits⟩ := ih (by omega)
    rw [chunkEnvelopes_concat, resend_concat, length_chunkEnvelopes, Run.after_concat]
    generalize Run.after readerStep reader (resend moments attempts
      (chunkEnvelopes clientId streamId metadata cursors chunks :
        List (ClientEnvelope Value × ℕ))) = reached at *
    obtain ⟨hpending, -⟩ := hawaits.observe Value hvalid (by omega) hgathered.length_le htext
      hslice (moments chunks.length) (cursors chunks.length)
    obtain ⟨assemblies, hobserve, hnext⟩ := hpending hlength
    have hobserved : reached.state.observeClientMessage (moments chunks.length)
        (chunkEnvelope clientId streamId metadata chunks.length text (cursors chunks.length) :
          ClientEnvelope Value) wireSizeBytes = _ :=
      observeClientMessage_chunk hstill hawaits hwire
    rw [hobserve] at hobserved
    rw [readerStep_of_not_forward hobserved (by simp), length_append]
    exact ⟨htracker, hstill, hnext⟩

/-- The chunks of a message that is welcome bring it to the tracker again. -/
theorem resend_chunks (hgathered : Gathered Value metadata chunks raw) (hvalid : metadata.Valid)
    (hlength : chunks.length = metadata.segmentCount)
    (hsize : raw.length = metadata.messageSizeBytes)
    (hparse : WireCodec.parseMessage raw = some message)
    (hnew : reader.state.isCompleted (clientId, some streamId) metadata.seqId = false)
    (hfree : reader.state.clientSegmentReassembler.Awaits clientId streamId metadata 0 [])
    (hnonempty : streamId.text ≠ []) (hsucceeds : ∀ i, (attempts i).Succeeds)
    (hwelcome : Welcomes reader.clientTracker (clientId, streamId) metadata.seqId message) :
    ∃ id, .forwarded (clientId, streamId) (some metadata.seqId) id message ∈
      Run.outputs readerStep reader (resend moments attempts
        (chunkEnvelopes clientId streamId metadata cursors chunks)) := by
  cases hgathered with
  | nil =>
    have hpos := hvalid.1
    rw [← hlength] at hpos
    cases hpos
  | concat hgathered htext hwire hslice =>
    rename_i chunks raw payload text wireSizeBytes
    rw [length_append, length_singleton] at hlength
    obtain ⟨htracker, hstill, hawaits⟩ := resend_pending cursors moments attempts hgathered
      hvalid (by omega) hnew hfree
    rw [chunkEnvelopes_concat, resend_concat, length_chunkEnvelopes, Run.outputs_concat]
    generalize Run.after readerStep reader (resend moments attempts
      (chunkEnvelopes clientId streamId metadata cursors chunks :
        List (ClientEnvelope Value × ℕ))) = reached at *
    obtain ⟨-, hcomplete⟩ := hawaits.observe Value hvalid (by omega) hgathered.length_le htext
      hslice (moments chunks.length) (cursors chunks.length)
    have hobserved : reached.state.observeClientMessage (moments chunks.length)
        (chunkEnvelope clientId streamId metadata chunks.length text (cursors chunks.length) :
          ClientEnvelope Value) wireSizeBytes = _ :=
      observeClientMessage_chunk hstill hawaits hwire
    rw [hcomplete message hlength hsize hparse] at hobserved
    rw [readerStep_of_forward hobserved]
    rw [← htracker] at hwelcome
    refine Exists.imp (fun id hlog => mem_append_right _ hlog) ?_
    exact Reader.deliver_forwarded rfl rfl rfl hnonempty (hsucceeds chunks.length) hwelcome

end Chunks

/-! ## Every run -/

/-- A message came in as these envelopes: as one, or as its chunks in order. -/
structure SentAs (seen : List (ClientEnvelope Value × ℕ)) (envelope : ClientEnvelope Value)
    (wireSizeBytes : ℕ) (key : ClientId × StreamId) (n : ℕ)
    (envelopes : List (ClientEnvelope Value × ℕ)) : Prop where
  came : ∀ sent ∈ envelopes, sent ∈ seen ∧ sent.1.clientId = key.1 ∧
    sent.1.streamId = some key.2 ∧ sent.1.seqId = some n
  whole : envelope.event.isChunk = false → envelopes = [(envelope, wireSizeBytes)]
  chunked : envelope.event.isChunk = true → ∃ segmentCount messageSizeBytes,
    envelopes.length = segmentCount ∧
    ∀ (segmentId : ℕ) (sent : ClientEnvelope Value × ℕ), envelopes[segmentId]? = some sent →
      ∃ text, sent.1.event = .clientMessageChunk segmentId segmentCount messageSizeBytes text

/-- Nothing stands in the way of a message that is sent again.  Unless it opens a connection, its
connection was not closed and nothing newer was forwarded.  If it comes in chunks, nothing newer
was completed and no other message of the stream is being collected. -/
structure Unhindered (message : JsonRpcMessage Value) (chunked : Bool) (key : ClientId × StreamId)
    (n : ℕ) (log : List (InboundLog Value)) (assemblies : Assemblies) : Prop where
  not_closed : message.startsConnection = false → ∀ id, .closed key id ∉ log
  forwarded_lt : message.startsConnection = false →
    ∀ m id message', .forwarded key (some m) id message' ∈ log → m < n
  completed_lt : chunked = true → ∀ m, .completed (key.1, some key.2) m ∈ log → m < n
  free : chunked = true → ∀ assembly, assemblies.lookup key.1 = some assembly →
    assembly.streamId ≠ key.2

omit [WireCodec Value] in
/-- Between two openings the numbers increase. -/
theorem forwarded_increasing {tracker : ClientTracker}
    {log before window after : List (InboundLog Value)} {key : ClientId × StreamId}
    (h : Delivery tracker log) (hlog : log = before ++ window ++ after)
    (hopened : ∀ id, .opened key id ∉ window) :
    (window.filterMap (forwardedSeqId key)).Pairwise (· < ·) := by
  have hordered := h.ordered key (before ++ window) ⟨after, hlog.symm⟩
  rw [since_append hopened] at hordered
  exact (pairwise_append.mp hordered).2.1

theorem Assemblies.observe_of_not_chunk (hchunk : envelope.event.isChunk = false)
    (assemblies : Assemblies) :
    assemblies.observe moment envelope = (.forward envelope, assemblies) := by
  unfold Assemblies.observe
  cases hevent : envelope.event with
  | clientMessageChunk =>
    rw [hevent] at hchunk
    cases hchunk
  | _ => rfl

omit [WireCodec Value] in
/-- The chunks of a completed message, as the envelopes they came in. -/
theorem exists_chunkEnvelopes {clientId : ClientId} {streamId : StreamId}
    {metadata : ClientSegmentMetadata} {chunks : List (Str × ℕ)}
    (h : CameIn seen clientId streamId metadata chunks) :
    ∃ cursors : ℕ → Option Str, ∀ sent ∈ (chunkEnvelopes clientId streamId metadata cursors chunks :
      List (ClientEnvelope Value × ℕ)), sent ∈ seen := by
  choose! cursors hcursors using h
  refine ⟨fun segmentId => cursors segmentId ((chunks[segmentId]?).getD ([], 0)), ?_⟩
  intro sent hsent
  obtain ⟨⟨chunk, segmentId⟩, hchunk, rfl⟩ := mem_map.mp hsent
  have hget := mem_zipIdx_iff_getElem?.mp hchunk
  dsimp only at hget ⊢
  rw [hget]
  exact hcursors segmentId chunk hget

omit [WireCodec Value] in
theorem sentAs_chunkEnvelopes {clientId : ClientId} {streamId : StreamId}
    {metadata : ClientSegmentMetadata} {chunks : List (Str × ℕ)} {cursors : ℕ → Option Str}
    (hchunk : envelope.event.isChunk = true) (hlength : chunks.length = metadata.segmentCount)
    (hcame : ∀ sent ∈ (chunkEnvelopes clientId streamId metadata cursors chunks :
      List (ClientEnvelope Value × ℕ)), sent ∈ seen) :
    SentAs seen envelope wireSizeBytes (clientId, streamId) metadata.seqId
      (chunkEnvelopes clientId streamId metadata cursors chunks) := by
  refine ⟨?_, ?_, ?_⟩
  · intro sent hsent
    refine ⟨hcame sent hsent, ?_⟩
    obtain ⟨chunk, -, rfl⟩ := mem_map.mp hsent
    exact ⟨rfl, rfl, rfl⟩
  · intro hwhole
    rw [hwhole] at hchunk
    cases hchunk
  · intro _
    refine ⟨metadata.segmentCount, metadata.messageSizeBytes, ?_, ?_⟩
    · rw [length_chunkEnvelopes, hlength]
    · intro segmentId sent hsent
      simp only [chunkEnvelopes, getElem?_map, getElem?_zipIdx, Option.map_map,
        Option.map_eq_some_iff] at hsent
      obtain ⟨chunk, -, rfl⟩ := hsent
      exact ⟨chunk.1, by simp [chunkEnvelope]⟩

section Failed

variable {inputs later : List (ReaderInput Value)} {attempt : Attempt} {streamId : StreamId}
  {n : ℕ} {message : JsonRpcMessage Value}

/-- A message that was not forwarded is still welcome after steps that do not stand in its way. -/
theorem welcomes_after (hinputs : ∀ input ∈ inputs, input.Explicit)
    (hlater : ∀ input ∈ later, input.Explicit) (hstream : envelope.streamId = some streamId)
    (hfailed : .failed (envelope.clientId, streamId) (some n) message ∈
      (readerStep (Run.after readerStep Reader.new inputs)
        (.message moment attempt envelope wireSizeBytes)).2)
    (hunhindered : Unhindered message envelope.event.isChunk (envelope.clientId, streamId) n
      (Run.outputs readerStep (Run.after readerStep Reader.new
        (inputs ++ [.message moment attempt envelope wireSizeBytes])) later)
      (Run.after readerStep Reader.new (inputs ++ [.message moment attempt envelope wireSizeBytes] ++
        later)).state.clientSegmentReassembler) :
    Welcomes (Run.after readerStep Reader.new
      (inputs ++ [.message moment attempt envelope wireSizeBytes] ++ later)).clientTracker
      (envelope.clientId, streamId) n message := by
  cases hstarts : message.startsConnection with
  | true => exact .inl hstarts
  | false =>
    right
    have hexplicit : ∀ input ∈ inputs ++ [.message moment attempt envelope wireSizeBytes] ++ later,
        input.Explicit := by
      rw [forall_mem_append, forall_mem_append, forall_mem_singleton]
      exact ⟨⟨hinputs, by simp [ReaderInput.Explicit, hstream]⟩, hlater⟩
    rw [← isNewOn_iff (delivery_after hexplicit), Run.outputs_append]
    refine IsNewOn.append ?_ (hunhindered.not_closed hstarts) (hunhindered.forwarded_lt hstarts)
    -- the failure itself leaves the connection and its numbers
    obtain ⟨-, -, hstep, hlog⟩ := readerStep_failed hstream hfailed
    obtain ⟨hreplay, hopen, heq⟩ := (handleClientMessage_failed hlog).2 hstarts
    rw [Run.outputs_concat, hstep, heq]
    refine IsNewOn.append ?_ (by simp) (by simp)
    rw [isNewOn_iff (delivery_after hinputs)]
    exact ⟨Option.isSome_iff_exists.mp hopen, hreplay⟩

end Failed

/-- In every run the numbers forwarded between two openings of a connection increase.  A message
that could not be forwarded is not recorded, and is forwarded when it is sent again and nothing
stands in its way. -/
theorem inbound_delivery (inputs : List (ReaderInput Value))
    (hinputs : ∀ input ∈ inputs, input.Explicit) :
    (∀ key before window after,
      Run.outputs readerStep Reader.new inputs = before ++ window ++ after →
      (∀ id, .opened key id ∉ window) → (window.filterMap (forwardedSeqId key)).Pairwise (· < ·)) ∧
    ∀ moment attempt envelope wireSizeBytes streamId n message,
      envelope.streamId = some streamId → envelope.seqId = some n →
      let key := (envelope.clientId, streamId)
      let input := ReaderInput.message moment attempt envelope wireSizeBytes
      let reader := Run.after readerStep Reader.new inputs
      .failed key (some n) message ∈ (readerStep reader input).2 →
      (readerStep reader input).1.clientTracker.isReplay key (some n) = false ∧
      (readerStep reader input).1.state.lastCompletedClientChunkSeqIdByStream =
        reader.state.lastCompletedClientChunkSeqIdByStream ∧
      ∃ envelopes, SentAs (seenEnvelopes (inputs ++ [input])) envelope wireSizeBytes key n envelopes ∧
        ∀ later, (∀ input ∈ later, input.Explicit) →
          let reached := Run.after readerStep Reader.new (inputs ++ [input] ++ later)
          Unhindered message envelope.event.isChunk key n
            (Run.outputs readerStep (readerStep reader input).1 later)
            reached.state.clientSegmentReassembler →
          ∀ moments attempts, (∀ i, (attempts i).Succeeds) →
            ∃ id, .forwarded key (some n) id message ∈
              Run.outputs readerStep reached (resend moments attempts envelopes) := by
  refine ⟨?_, ?_⟩
  · intro key before window after hlog hopened
    exact forwarded_increasing (delivery_after hinputs) hlog hopened
  · intro moment attempt envelope wireSizeBytes streamId n message hstream hseq key input reader
      hfailed
    obtain ⟨hnonempty, hobserved, hstep, hlog⟩ := readerStep_failed hstream hfailed
    refine ⟨?_, ?_, ?_⟩
    · rw [hstep]
      exact (handleClientMessage_failed hlog).1.not_replay
    · rw [hstep]
      exact lastCompleted_observeClientMessage
    · have hseen : seenEnvelopes (inputs ++ [input]) =
          seenEnvelopes inputs ++ [(envelope, wireSizeBytes)] := by
        simp [seenEnvelopes, input]
      obtain ⟨hbefore, hwire, hforward⟩ := observeClientMessage_eq_forward hobserved
      have hafter : ∀ later, Run.after readerStep Reader.new (inputs ++ [input] ++ later) =
          Run.after readerStep (readerStep reader input).1 later := by
        intro later
        rw [Run.after_append, Run.after_concat]
      cases hchunk : envelope.event.isChunk with
      | false =>
        rw [Assemblies.observe_of_not_chunk hchunk] at hforward
        have hevent : envelope.event = .clientMessage message :=
          congrArg ClientEnvelope.event (ClientSegmentObservation.forward.inj hforward)
        refine ⟨[(envelope, wireSizeBytes)], ⟨?_, fun _ => rfl, ?_⟩, ?_⟩
        · intro sent hsent
          rw [mem_singleton.mp hsent, hseen]
          exact ⟨by simp, rfl, hstream, hseq⟩
        · intro hchunk'
          rw [hchunk] at hchunk'
          cases hchunk'
        · intro later hlater reached hunhindered moments attempts hsucceeds
          rw [← hchunk, ← Run.after_concat] at hunhindered
          have hwelcome := welcomes_after hinputs hlater hstream hfailed hunhindered
          exact readerStep_whole hevent hstream hseq hnonempty (hsucceeds 0) hwelcome
      | true =>
        have hkey : clientMessageKey envelope = some ((envelope.clientId, some streamId), n) := by
          cases hevent : envelope.event with
          | clientMessageChunk => simp [clientMessageKey, hevent, hseq, hstream]
          | _ =>
            rw [hevent] at hchunk
            cases hchunk
        replace hbefore := hbefore _ _ hkey
        obtain ⟨-, hcompleted⟩ := (took_after inputs).observe moment envelope hwire
        obtain ⟨streamId', metadata, chunks, message', hstream', hseq', hevent, hall⟩ :=
          hcompleted _ hchunk hforward
        obtain rfl : streamId' = streamId := by simpa [hstream] using hstream'.symm
        obtain rfl : metadata.seqId = n := by simpa [hseq] using hseq'.symm
        obtain rfl : message = message' := by simpa using hevent
        rw [← hseen] at hall
        obtain ⟨cursors, hcame⟩ := exists_chunkEnvelopes hall.cameIn
        refine ⟨_, sentAs_chunkEnvelopes hchunk hall.length_eq hcame, ?_⟩
        intro later hlater reached hunhindered moments attempts hsucceeds
        obtain ⟨raw, hgathered, hsize, hparse⟩ := hall.gathered
        -- the chunks of a message that was not forwarded are still new
        have hnew : (Run.after readerStep (readerStep reader input).1 later).state.isCompleted
            (envelope.clientId, some streamId') metadata.seqId = false := by
          unfold isCompleted at hbefore ⊢
          rw [Option.any_eq_false] at hbefore ⊢
          intro m hm
          rw [decide_eq_false_iff_not, not_le]
          rcases completed_after hm with hm | hm
          · rw [hstep, lastCompleted_observeClientMessage] at hm
            simpa using hbefore m hm
          · exact hunhindered.completed_lt rfl m hm
        have hfree := hunhindered.free rfl
        rw [← hchunk, ← Run.after_concat] at hunhindered
        have hwelcome := welcomes_after hinputs hlater hstream hfailed hunhindered
        rw [← hafter later] at hnew
        exact resend_chunks cursors moments attempts hgathered hall.valid hall.length_eq hsize
          hparse hnew (.inl ⟨rfl, rfl, hfree⟩) hnonempty hsucceeds hwelcome

/-- A call that can send everything but the message itself, or also the message. -/
def plainAttempt (incomingSent : Bool) : Attempt := ⟨0, ⟨['r']⟩, 1, true, true, incomingSent⟩

/-- A request of the stream `s` of the client `c`. -/
def plainRequest (seqId : ℕ) (method : String) : ClientEnvelope Unit :=
  ⟨.clientMessage (.request method.toList ()), ⟨['c']⟩, some ⟨['s']⟩, some seqId, none⟩

def plainMoment : Moment := ⟨0, id, fun _ => List.Perm.refl _⟩

theorem inbound_delivery_request :
    let _ : WireCodec Unit := plainCodec
    let key : ClientId × StreamId := (⟨['c']⟩, ⟨['s']⟩)
    let inputs := [.message plainMoment (plainAttempt true) (plainRequest 1 "initialize") 0]
    let failing := ReaderInput.message plainMoment (plainAttempt false) (plainRequest 5 "a") 0
    .failed key (some 5) (.request ['a'] ()) ∈
        (readerStep (Run.after readerStep Reader.new inputs) failing).2 ∧
      ∃ id, .forwarded key (some 5) id (.request ['a'] ()) ∈ Run.outputs readerStep
        (Run.after readerStep Reader.new (inputs ++ [failing] ++ []))
        (resend (fun _ => plainMoment) (fun _ => plainAttempt true) [(plainRequest 5 "a", 0)]) := by
  intro _ key inputs failing
  have hfailed : .failed key (some 5) (.request ['a'] ()) ∈
      (readerStep (Run.after readerStep Reader.new inputs) failing).2 := by decide
  have hinputs : ∀ input ∈ inputs, input.Explicit := by
    intro input hinput
    rw [mem_singleton.mp hinput]
    rfl
  obtain ⟨-, -, envelopes, hsent, hagain⟩ := (inbound_delivery inputs hinputs).2 plainMoment
    (plainAttempt false) (plainRequest 5 "a") 0 ⟨['s']⟩ 5 _ rfl rfl hfailed
  rw [hsent.whole rfl] at hagain
  refine ⟨hfailed, hagain [] (by simp) ⟨?_, ?_, ?_, ?_⟩ _ _ fun _ => ⟨rfl, rfl, rfl⟩⟩
  · intro _ id hmem
    cases hmem
  · intro _ m id message hmem
    cases hmem
  · intro hchunk
    cases hchunk
  · intro hchunk
    cases hchunk

/-- A message that could not be forwarded is dropped when it is sent again after a newer one. -/
theorem overtaken_not_forwarded :
    let _ : WireCodec Unit := plainCodec
    let key : ClientId × StreamId := (⟨['c']⟩, ⟨['s']⟩)
    let inputs := [.message plainMoment (plainAttempt true) (plainRequest 1 "initialize") 0]
    let failing := ReaderInput.message plainMoment (plainAttempt false) (plainRequest 5 "a") 0
    let later := [ReaderInput.message plainMoment (plainAttempt true) (plainRequest 6 "b") 0]
    .failed key (some 5) (.request ['a'] ()) ∈
        (readerStep (Run.after readerStep Reader.new inputs) failing).2 ∧
      Run.outputs readerStep (Run.after readerStep Reader.new (inputs ++ [failing] ++ later))
        (resend (fun _ => plainMoment) (fun _ => plainAttempt true) [(plainRequest 5 "a", 0)]) =
          [] := by
  decide

end Codex.RemoteControl
