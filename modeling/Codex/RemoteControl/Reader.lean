import Codex.RemoteControl.ClientTracker

/-!
# The reader of the websocket

The reader takes the envelopes of the clients from the websocket, reassembles the messages
that come in chunks and passes everything on to the tracker.  It stops when the tracker
cannot send an event; a new reader then goes on with the same state.

What the tracker knows about a stream can be read off the log of a run: whether its
connection is open, and the sequence numbers forwarded since it was opened.
-/

namespace Codex.RemoteControl

open Text

/-- The part of `WebsocketState` that the reader uses. -/
structure WebsocketState where
  subscribeCursor : Option Str
  lastCompletedClientChunkSeqIdByStream : AList fun _ : ClientId × Option StreamId => ℕ
  clientSegmentReassembler : Assemblies

structure Reader where
  clientTracker : ClientTracker
  state : WebsocketState

def Reader.new : Reader := ⟨.new, ⟨none, ∅, ∅⟩⟩

variable {Value : Type}

/-- The stream and the number of a chunk. -/
def clientMessageKey (envelope : ClientEnvelope Value) :
    Option ((ClientId × Option StreamId) × ℕ) :=
  match envelope.event, envelope.seqId with
  | .clientMessageChunk _ _ _ _, some seqId => some ((envelope.clientId, envelope.streamId), seqId)
  | _, _ => none

namespace WebsocketState

/-- A message of this number that came in chunks is done. -/
def isCompleted (state : WebsocketState) (key : ClientId × Option StreamId) (seqId : ℕ) : Bool :=
  (state.lastCompletedClientChunkSeqIdByStream.lookup key).any fun lastSeqId => seqId ≤ lastSeqId

variable (state : WebsocketState) (envelope : ClientEnvelope Value)

/-- The chunk was seen by the assembly of its stream. -/
def shouldIgnoreChunk : Bool :=
  match envelope.event, envelope.seqId, envelope.streamId with
  | .clientMessageChunk segmentId _ _ _, some seqId, some streamId =>
    state.clientSegmentReassembler.shouldIgnoreChunk envelope.clientId streamId seqId segmentId
  | _, _, _ => false

def invalidateStream (clientId : ClientId) (streamId : StreamId) : WebsocketState :=
  { state with
    clientSegmentReassembler := state.clientSegmentReassembler.removeAssembly clientId streamId
    lastCompletedClientChunkSeqIdByStream :=
      state.lastCompletedClientChunkSeqIdByStream.erase (clientId, some streamId) }

/-- `retain` on the map of the numbers. -/
def invalidateClient (clientId : ClientId) : WebsocketState :=
  { state with
    clientSegmentReassembler := state.clientSegmentReassembler.erase clientId
    lastCompletedClientChunkSeqIdByStream :=
      (state.lastCompletedClientChunkSeqIdByStream.keys.filter
        fun key => key.1 = clientId).foldl (fun map key => map.erase key)
        state.lastCompletedClientChunkSeqIdByStream }

variable [WireCodec Value]

/-- What was completed, is stale or is too long is dropped; the rest goes to the reassembler. -/
def observeClientMessage (moment : Moment) (state : WebsocketState)
    (envelope : ClientEnvelope Value) (wireSizeBytes : ℕ) :
    ClientSegmentObservation Value × WebsocketState :=
  let clientMessageKey := clientMessageKey envelope
  if clientMessageKey.any fun key => state.isCompleted key.1 key.2 then (.dropped, state)
  else if state.shouldIgnoreChunk envelope then (.dropped, state)
  else if clientMessageKey.isSome && remoteControlSegmentMaxBytes < wireSizeBytes then
    (.dropped, match envelope.streamId with
      | some streamId =>
        { state with
          clientSegmentReassembler :=
            state.clientSegmentReassembler.removeAssembly envelope.clientId streamId }
      | none => state)
  else
    let (observation, assemblies) := state.clientSegmentReassembler.observe moment envelope
    (observation, { state with clientSegmentReassembler := assemblies })

omit [WireCodec Value] in
/-- The envelope was handled; an acknowledgement goes to the outbound buffer. -/
def recordClientMessageDelivery (clientMessageKey : Option ((ClientId × Option StreamId) × ℕ)) :
    WebsocketState × List (InboundLog Value) :=
  let state := { state with subscribeCursor := envelope.cursor.or state.subscribeCursor }
  let (state, completed) : WebsocketState × List (InboundLog Value) := match clientMessageKey with
    | some (key, seqId) =>
      ({ state with
        lastCompletedClientChunkSeqIdByStream :=
          state.lastCompletedClientChunkSeqIdByStream.insert key seqId },
        [.completed key seqId])
    | none => (state, [])
  let acked : List (InboundLog Value) := match envelope.event, envelope.seqId, envelope.streamId with
    | .ack segmentId, some ackedSeqId, some streamId =>
      [.acked (envelope.clientId, streamId) ackedSeqId segmentId]
    | _, _, _ => []
  (state, completed ++ acked)

omit [WireCodec Value] in
/-- A client that has closed leaves nothing behind. -/
def afterClosed : WebsocketState :=
  match envelope.event, envelope.streamId with
  | .clientClosed, some streamId => state.invalidateStream envelope.clientId streamId
  | .clientClosed, none => state.invalidateClient envelope.clientId
  | _, _ => state

end WebsocketState

/-- An order in which the map of the clients is iterated. -/
structure ClientIteration where
  iterate : List (Sigma fun _ : ClientId × StreamId => ClientState) →
    List (Sigma fun _ : ClientId × StreamId => ClientState)
  perm : ∀ entries, (iterate entries).Perm entries

/-- What wakes the reader. -/
inductive ReaderInput (Value : Type) where
  | message (moment : Moment) (attempt : Attempt) (envelope : ClientEnvelope Value)
      (wireSizeBytes : ℕ)
  /-- The task that sends the messages of a client has ended. -/
  | joined (clientKey : ClientId × StreamId) (sent : Bool)
  /-- Idle clients are closed. -/
  | sweep (now : ℕ) (iteration : ClientIteration) (sent : ClientId × StreamId → Bool)

namespace Reader

variable [WireCodec Value]

/-- An envelope that is not a chunk, or a message that has been reassembled. -/
def deliver (attempt : Attempt) (reader : Reader) (envelope : ClientEnvelope Value)
    (clientMessageKey : Option ((ClientId × Option StreamId) × ℕ)) :
    Reader × List (InboundLog Value) :=
  let handled := reader.clientTracker.handleMessage attempt envelope
  if !handled.ok then (⟨handled.tracker, reader.state⟩, handled.log)
  else
    let (state, log) := reader.state.recordClientMessageDelivery envelope clientMessageKey
    (⟨handled.tracker, state.afterClosed envelope⟩, handled.log ++ log)

end Reader

/-- One event of the reader loop: a message, a client task that has ended, or a sweep. -/
def readerStep [WireCodec Value] (reader : Reader) :
    ReaderInput Value → Reader × List (InboundLog Value)
  | .message moment attempt envelope wireSizeBytes =>
    let (observation, state) := reader.state.observeClientMessage moment envelope wireSizeBytes
    match observation with
    | .forward forwarded =>
      Reader.deliver attempt ⟨reader.clientTracker, state⟩ forwarded (clientMessageKey envelope)
    | .pending | .dropped => (⟨reader.clientTracker, state⟩, [])
  | .joined clientKey sent =>
    let closing : Handled Value := reader.clientTracker.closeClient sent clientKey
    (⟨closing.tracker, if closing.ok then
      reader.state.invalidateStream clientKey.1 clientKey.2 else reader.state⟩, closing.log)
  | .sweep now iteration sent =>
    let expired := reader.clientTracker.expiredClients now iteration.iterate
    let closing : Handled Value := ClientTracker.closeClients sent expired reader.clientTracker
    (⟨closing.tracker, if closing.ok then
      expired.foldl (fun state clientKey => state.invalidateStream clientKey.1 clientKey.2)
        reader.state else reader.state⟩, closing.log)

/-- The envelope names its stream. -/
def ReaderInput.Explicit : ReaderInput Value → Prop
  | message _ _ envelope _ => envelope.streamId.isSome = true
  | _ => True

/-! ## What every run keeps -/

open ClientTracker InboundLog

variable [WireCodec Value] {log : List (InboundLog Value)}

omit [WireCodec Value] in
/-- What is recorded after an envelope says nothing about the connections. -/
theorem mem_recordClientMessageDelivery {state : WebsocketState} {envelope : ClientEnvelope Value}
    {clientMessageKey : Option ((ClientId × Option StreamId) × ℕ)} {entry : InboundLog Value}
    (hentry : entry ∈ (state.recordClientMessageDelivery envelope clientMessageKey).2) :
    (∃ key seqId, clientMessageKey = some (key, seqId) ∧ entry = completed key seqId) ∨
      ∃ key seqId segmentId, entry = acked key seqId segmentId := by
  rcases List.mem_append.mp hentry with hcompleted | hacked
  · cases clientMessageKey with
    | none => cases hcompleted
    | some found =>
      exact .inl ⟨found.1, found.2, rfl, List.mem_singleton.mp hcompleted⟩
  · split at hacked
    · exact .inr ⟨_, _, _, List.mem_singleton.mp hacked⟩
    · cases hacked

variable {moment : Moment} {envelope forwarded : ClientEnvelope Value}

variable {state : WebsocketState} {wireSizeBytes : ℕ}

/-- What the reader gets from an envelope has the same stream and number. -/
theorem WebsocketState.observeClientMessage_forward
    (h : (state.observeClientMessage moment envelope wireSizeBytes).1 = .forward forwarded) :
    forwarded = { envelope with event := forwarded.event } := by
  unfold WebsocketState.observeClientMessage at h
  dsimp only at h
  split_ifs at h
  unfold Assemblies.observe at h
  split at h
  · split at h
    · dsimp only at h
      split_ifs at h
      split at h
      all_goals cases h
      rfl
    · cases h
  · cases h
    rfl

theorem readerStep_of_forward {reader : Reader} {attempt : Attempt}
    (h : reader.state.observeClientMessage moment envelope wireSizeBytes =
      (.forward forwarded, state)) :
    readerStep reader (.message moment attempt envelope wireSizeBytes) =
      Reader.deliver attempt ⟨reader.clientTracker, state⟩ forwarded (clientMessageKey envelope) := by
  simp only [readerStep, h]

theorem readerStep_of_not_forward {reader : Reader} {attempt : Attempt}
    {observation : ClientSegmentObservation Value}
    (h : reader.state.observeClientMessage moment envelope wireSizeBytes = (observation, state))
    (hnot : ∀ forwarded, observation ≠ .forward forwarded) :
    readerStep reader (.message moment attempt envelope wireSizeBytes) =
      (⟨reader.clientTracker, state⟩, []) := by
  cases observation with
  | forward forwarded => exact absurd rfl (hnot forwarded)
  | pending | dropped => simp only [readerStep, h]

theorem readerStep_delivery {reader : Reader} {input : ReaderInput Value}
    (h : Delivery reader.clientTracker log) (hexplicit : input.Explicit) :
    Delivery (readerStep reader input).1.clientTracker (log ++ (readerStep reader input).2) := by
  cases input with
  | message moment attempt envelope wireSizeBytes =>
    rcases hobserved : reader.state.observeClientMessage moment envelope wireSizeBytes with
      ⟨observation, state⟩
    by_cases hforward : ∃ forwarded, observation = .forward forwarded
    · obtain ⟨forwarded, rfl⟩ := hforward
      have hforwarded := WebsocketState.observeClientMessage_forward (congrArg Prod.fst hobserved)
      have hforwardedId : forwarded.streamId.isSome = true := by
        rw [hforwarded]
        exact hexplicit
      have hkeeps := h.handleMessage attempt hforwardedId
      rw [readerStep_of_forward hobserved]
      unfold Reader.deliver
      dsimp only
      split_ifs
      · exact hkeeps
      · dsimp only
        rw [← List.append_assoc]
        refine hkeeps.append fun entry hmem key => ?_
        rcases mem_recordClientMessageDelivery hmem with ⟨_, _, -, rfl⟩ | ⟨_, _, _, rfl⟩
        · exact ⟨nofun, nofun, rfl⟩
        · exact ⟨nofun, nofun, rfl⟩
    · rw [readerStep_of_not_forward hobserved (not_exists.mp hforward), List.append_nil]
      exact h
  | joined clientKey sent => exact h.closeClient sent clientKey
  | sweep now iteration sent => exact h.closeClients sent _

/-- The log of a run says what its tracker knows. -/
theorem delivery_after {inputs : List (ReaderInput Value)}
    (hexplicit : ∀ input ∈ inputs, input.Explicit) :
    Delivery (Run.after readerStep Reader.new inputs).clientTracker
      (Run.outputs readerStep Reader.new inputs) := by
  refine Run.invariant (P := fun past reader log => (∀ input ∈ past, input.Explicit) →
    Delivery reader.clientTracker log) readerStep Reader.new ?_ ?_ inputs hexplicit
  · exact fun _ => Delivery.nil
  · intro past reader log input ih hexplicit
    exact readerStep_delivery (ih fun other hother => hexplicit other (List.mem_append_left _ hother))
      (hexplicit input (by simp))

end Codex.RemoteControl
