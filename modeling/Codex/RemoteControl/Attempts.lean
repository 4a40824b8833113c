import Codex.RemoteControl.Gather

/-!
# Attempts to forward a message

What the tracker does with one message when its events can be sent and when they cannot,
what the log says after more steps, and what a step of the reader does to the assemblies
and to the numbers of completed messages.
-/

namespace Codex.RemoteControl

open Text ClientTracker InboundLog WebsocketState List Assemblies

variable {Value : Type}

/-! ## One message -/

/-- Every event of the attempt can be sent. -/
def Attempt.Succeeds (attempt : Attempt) : Prop :=
  attempt.closedSent = true ∧ attempt.openedSent = true ∧ attempt.incomingSent = true

namespace ClientTracker

variable {tracker : ClientTracker} {attempt : Attempt} {clientKey : ClientId × StreamId}
  {client : ClientState} {seqId : Option ℕ} {message : JsonRpcMessage Value}
  {envelope : ClientEnvelope Value} {streamId : StreamId}

theorem handleMessage_clientMessage (hevent : envelope.event = .clientMessage message)
    (hstream : envelope.streamId = some streamId) (hnonempty : streamId.text ≠ []) :
    tracker.handleMessage attempt envelope = tracker.handleClientMessage attempt
      (envelope.clientId, streamId) false envelope.seqId message := by
  simp [handleMessage, resolveStreamId, hevent, hstream, hnonempty]

/-- A message that opens a connection, or is new on an open one, is forwarded. -/
theorem handleClientMessage_forwarded (hsucceeds : attempt.Succeeds)
    (hready : message.startsConnection = true ∨
      (∃ client, tracker.clients.lookup clientKey = some client) ∧
        tracker.isReplay clientKey seqId = false) :
    (tracker.handleClientMessage attempt clientKey false seqId message).ok = true ∧
      ∃ id, .forwarded clientKey seqId id message ∈
        (tracker.handleClientMessage attempt clientKey false seqId message).log := by
  cases hstarts : message.startsConnection with
  | true =>
    have hclosed : (tracker.closeClient attempt.closedSent clientKey : Handled Value).ok =
        true := by
      cases hlookup : tracker.clients.lookup clientKey with
      | none => rw [closeClient_of_lookup_none hlookup]
      | some client =>
        rw [closeClient_of_lookup hlookup]
        exact hsucceeds.1
    rw [handleClientMessage_of_starts hstarts]
    dsimp only
    rw [hclosed, openConnection, hsucceeds.2.1, hsucceeds.2.2]
    exact ⟨rfl, attempt.newConnectionId, by simp⟩
  | false =>
    rcases hready with hstarts' | ⟨⟨client, hlookup⟩, hreplay⟩
    · rw [hstarts] at hstarts'
      cases hstarts'
    · rw [handleClientMessage_of_not_starts hstarts, hreplay, hlookup]
      dsimp only [forward]
      rw [if_pos hsucceeds.2.2]
      exact ⟨rfl, client.connectionId, by simp⟩

theorem mem_log_closeClient {sent : Bool} {entry : InboundLog Value}
    (h : entry ∈ (tracker.closeClient sent clientKey).log) : ∃ id, entry = .closed clientKey id := by
  cases hlookup : tracker.clients.lookup clientKey with
  | none =>
    rw [closeClient_of_lookup_none hlookup] at h
    cases h
  | some client =>
    rw [closeClient_of_lookup hlookup] at h
    exact ⟨client.connectionId, mem_singleton.mp h⟩

/-- The call did not forward its message, and says so in its log. -/
structure FailsOn (handled : Handled Value) (clientKey : ClientId × StreamId) (seqId : Option ℕ)
    (message : JsonRpcMessage Value) : Prop where
  ok_eq : handled.ok = false
  failed_eq : ∀ key seqId' message', .failed key seqId' message' ∈ handled.log →
    key = clientKey ∧ seqId' = seqId ∧ message' = message
  not_forwarded : ∀ key seqId' id message', .forwarded key seqId' id message' ∉ handled.log
  not_replay : handled.tracker.isReplay clientKey seqId = false

theorem isReplay_of_lookup_none (hlookup : tracker.clients.lookup clientKey = none)
    (seqId : Option ℕ) : tracker.isReplay clientKey seqId = false := by
  cases seqId with
  | none => rfl
  | some n => simp [isReplay, hlookup]

theorem openConnection_failed {entry : InboundLog Value}
    (hlookup : tracker.clients.lookup clientKey = none)
    (h : entry ∈ (tracker.openConnection attempt clientKey false seqId message).log)
    (hentry : ∃ key seqId' message', entry = .failed key seqId' message') :
    FailsOn (tracker.openConnection attempt clientKey false seqId message) clientKey seqId
      message := by
  obtain ⟨key, seqId', message', rfl⟩ := hentry
  unfold openConnection at h ⊢
  cases hopened : attempt.openedSent with
  | false =>
    refine ⟨rfl, ?_, ?_, isReplay_of_lookup_none hlookup seqId⟩
    · intro key seqId' message' hmem
      simpa using hmem
    · intro key seqId' id message' hmem
      simp at hmem
  | true =>
    cases hincoming : attempt.incomingSent with
    | true => simp [hopened, hincoming] at h
    | false =>
      refine ⟨rfl, ?_, ?_, isReplay_of_lookup_none lookup_removeClient_self seqId⟩
      · intro key seqId' message' hmem
        simpa using hmem
      · intro key seqId' id message' hmem
        simp at hmem

/-- When a message could not be forwarded, nothing was; unless it opens a connection, its
connection is still open and the message was new on it. -/
theorem handleClientMessage_failed {key : ClientId × StreamId} {seqId' : Option ℕ}
    {message' : JsonRpcMessage Value}
    (h : .failed key seqId' message' ∈
      (tracker.handleClientMessage attempt clientKey false seqId message).log) :
    FailsOn (tracker.handleClientMessage attempt clientKey false seqId message) clientKey seqId
        message ∧
      (message.startsConnection = false →
        tracker.isReplay clientKey seqId = false ∧
          (tracker.clients.lookup clientKey).isSome = true ∧
          (tracker.handleClientMessage attempt clientKey false seqId message).log =
            [.failed clientKey seqId message]) := by
  cases hstarts : message.startsConnection with
  | false =>
    rw [handleClientMessage_of_not_starts hstarts] at h ⊢
    split_ifs at h ⊢ with hreplay
    · cases h
    · cases hlookup : tracker.clients.lookup clientKey with
      | none =>
        rw [hlookup] at h
        cases h
      | some client =>
        rw [hlookup] at h
        dsimp only [forward] at h ⊢
        cases hincoming : attempt.incomingSent with
        | true => simp [hincoming] at h
        | false =>
          have hnew : tracker.isReplay clientKey seqId = false := by simpa using hreplay
          refine ⟨⟨rfl, ?_, ?_, ?_⟩, fun _ => ⟨hnew, rfl, rfl⟩⟩
          · intro key seqId' message' hmem
            simpa using hmem
          · intro key seqId' id message' hmem
            simp at hmem
          · simpa [isReplay, hlookup] using hnew
  | true =>
    refine ⟨?_, fun hnot => absurd hnot (by simp)⟩
    rw [handleClientMessage_of_starts hstarts] at h ⊢
    dsimp only at h ⊢
    -- closing the old connection only says that it is closed
    have hclosing : ∀ entry : InboundLog Value, (∀ id, entry ≠ .closed clientKey id) →
        entry ∉ (tracker.closeClient attempt.closedSent clientKey).log := by
      intro entry hentry hmem
      obtain ⟨id, rfl⟩ := mem_log_closeClient hmem
      exact hentry id rfl
    have hresult := (mem_append.mp h).resolve_left (hclosing _ (by simp))
    split_ifs at hresult ⊢ with hclosed
    · refine ⟨rfl, ?_, ?_, isReplay_of_lookup_none (lookup_closeClient_self _) seqId⟩
      · intro key seqId' message' hmem
        have hmem := (mem_append.mp hmem).resolve_left (hclosing _ (by simp))
        simpa using hmem
      · intro key seqId' id message' hmem
        have hmem := (mem_append.mp hmem).resolve_left (hclosing _ (by simp))
        simp at hmem
    · have hfails := openConnection_failed (lookup_closeClient_self _) hresult ⟨_, _, _, rfl⟩
      refine ⟨hfails.ok_eq, ?_, ?_, hfails.not_replay⟩
      · intro key seqId' message' hmem
        exact hfails.failed_eq key seqId' message'
          ((mem_append.mp hmem).resolve_left (hclosing _ (by simp)))
      · intro key seqId' id message' hmem
        exact hfails.not_forwarded key seqId' id message'
          ((mem_append.mp hmem).resolve_left (hclosing _ (by simp)))

theorem handleMessage_failed {key : ClientId × StreamId}
    (hstream : envelope.streamId = some streamId)
    (h : .failed key seqId message ∈ (tracker.handleMessage attempt envelope).log) :
    envelope.event = .clientMessage message ∧ streamId.text ≠ [] ∧
      key = (envelope.clientId, streamId) ∧ seqId = envelope.seqId := by
  have hresolve : tracker.resolveStreamId attempt envelope = (streamId, tracker) := by
    simp only [resolveStreamId, hstream]
  by_cases hempty : streamId.text.isEmpty = true
  · simp only [handleMessage, hresolve, if_pos hempty] at h
    cases h
  · simp only [handleMessage, hresolve, if_neg hempty] at h
    cases hevent : envelope.event with
    | clientMessage message' =>
      simp only [hevent, hstream] at h
      obtain ⟨hkey, hseq, hmessage⟩ := (handleClientMessage_failed h).1.failed_eq _ _ _ h
      exact ⟨by rw [hmessage], by simpa using hempty, hkey, hseq⟩
    | clientMessageChunk segmentId segmentCount messageSizeBytes text | ack segmentId =>
      simp only [hevent] at h
      cases h
    | ping =>
      simp only [hevent, handlePing] at h
      split at h
      all_goals simp at h
    | clientClosed =>
      simp only [hevent] at h
      obtain ⟨id, hentry⟩ := mem_log_closeClient h
      cases hentry

end ClientTracker

/-! ## What the log says after more steps -/

namespace InboundLog

variable {key : ClientId × StreamId} {log more : List (InboundLog Value)}

/-- A connection that is not closed stays open. -/
theorem isOpen_append (hopen : isOpen key log = true) (hclosed : ∀ id, closed key id ∉ more) :
    isOpen key (log ++ more) = true := by
  induction more using List.reverseRecOn with
  | nil => rwa [append_nil]
  | append_singleton more entry ih =>
    have ih := ih fun id hmem => hclosed id (mem_append_left _ hmem)
    rw [← List.append_assoc]
    cases entry with
    | opened key' id => rw [isOpen_concat_opened, ih, Bool.or_true]
    | closed key' id =>
      have hne : key' ≠ key := by
        rintro rfl
        exact hclosed id (by simp)
      rw [isOpen_concat_closed, ih]
      simp [hne]
    | forwarded | failed | pong | acked | completed =>
      rw [isOpen_concat (by simp) (by simp), ih]

/-- The last number stays below a bound that is above all that is forwarded. -/
theorem getLast?_since_append_lt {n : ℕ} (hlast : ∀ last ∈ (since key log).getLast?, last < n)
    (hmore : ∀ m id message, forwarded key (some m) id message ∈ more → m < n) :
    ∀ last ∈ (since key (log ++ more)).getLast?, last < n := by
  induction more using List.reverseRecOn with
  | nil => rwa [append_nil]
  | append_singleton more entry ih =>
    have ih := ih fun m id message hmem => hmore m id message (mem_append_left _ hmem)
    rw [← List.append_assoc]
    by_cases hopened : ∃ id, entry = opened key id
    · obtain ⟨id, rfl⟩ := hopened
      rw [since_concat_opened]
      intro last hlast
      cases hlast
    · rw [since_concat (not_exists.mp hopened)]
      cases hseq : entry.forwardedSeqId key with
      | none => simpa using ih
      | some m =>
        intro last hlast
        obtain rfl : m = last := by simpa using hlast
        cases entry with
        | forwarded key' seqId id message =>
          simp only [forwardedSeqId, Option.ite_none_right_eq_some] at hseq
          obtain ⟨rfl, rfl⟩ := hseq
          exact hmore m id message (by simp)
        | opened | closed | failed | pong | acked | completed => cases hseq

end InboundLog

/-! ## What the reader keeps -/

/-- The envelopes that came in, each with its size on the wire. -/
def seenEnvelopes (inputs : List (ReaderInput Value)) : List (ClientEnvelope Value × ℕ) :=
  inputs.filterMap fun
    | .message _ _ envelope wireSizeBytes => some (envelope, wireSizeBytes)
    | _ => none

variable [WireCodec Value] {seen : List (ClientEnvelope Value × ℕ)} {moment : Moment}
  {envelope forwarded : ClientEnvelope Value} {wireSizeBytes : ℕ}

namespace WebsocketState

variable {state state' : WebsocketState}

/-- Observing an envelope completes nothing. -/
theorem lastCompleted_observeClientMessage :
    (state.observeClientMessage moment envelope
      wireSizeBytes).2.lastCompletedClientChunkSeqIdByStream =
        state.lastCompletedClientChunkSeqIdByStream := by
  unfold observeClientMessage
  dsimp only
  split_ifs
  · rfl
  · rfl
  · split <;> rfl
  · rfl

/-- A message that is forwarded passed all checks. -/
theorem observeClientMessage_eq_forward
    (h : (state.observeClientMessage moment envelope wireSizeBytes).1 = .forward forwarded) :
    (∀ key seqId, clientMessageKey envelope = some (key, seqId) →
        state.isCompleted key seqId = false) ∧
      ((clientMessageKey envelope).isSome = true → wireSizeBytes ≤ remoteControlSegmentMaxBytes) ∧
      (state.clientSegmentReassembler.observe moment envelope).1 = .forward forwarded := by
  unfold observeClientMessage at h
  dsimp only at h
  split_ifs at h with hcompleted hignore hwire
  refine ⟨?_, ?_, h⟩
  · intro key seqId hkey
    rw [hkey] at hcompleted
    simpa using hcompleted
  · intro hkey
    rw [hkey] at hwire
    simpa using hwire

theorem took_observeClientMessage (moment : Moment) (envelope : ClientEnvelope Value)
    (wireSizeBytes : ℕ) (h : Took seen state.clientSegmentReassembler) :
    Took (seen ++ [(envelope, wireSizeBytes)])
      (state.observeClientMessage moment envelope wireSizeBytes).2.clientSegmentReassembler := by
  have hkept : Took (seen ++ [(envelope, wireSizeBytes)])
      state.clientSegmentReassembler := h.mono (subset_append_left _ _)
  unfold observeClientMessage
  dsimp only
  split_ifs with hcompleted hignore hwire
  · exact hkept
  · exact hkept
  · cases envelope.streamId with
    | none => exact hkept
    | some streamId => exact All.removeAssembly hkept _ _
  · refine (h.observe moment envelope ?_).1
    intro hkey
    rw [hkey] at hwire
    simpa using hwire

/-- Assemblies and numbers may have been removed. -/
structure Forgets (state state' : WebsocketState) : Prop where
  assembly : ∀ clientId assembly, state'.clientSegmentReassembler.lookup clientId = some assembly →
    state.clientSegmentReassembler.lookup clientId = some assembly
  completed : ∀ key seqId,
    state'.lastCompletedClientChunkSeqIdByStream.lookup key = some seqId →
      state.lastCompletedClientChunkSeqIdByStream.lookup key = some seqId

omit [WireCodec Value]

theorem Forgets.refl (state : WebsocketState) : Forgets state state :=
  ⟨fun _ _ h => h, fun _ _ h => h⟩

theorem Forgets.trans {state'' : WebsocketState} (h : Forgets state state')
    (h' : Forgets state' state'') : Forgets state state'' :=
  ⟨fun clientId assembly hlookup => h.assembly _ _ (h'.assembly clientId assembly hlookup),
    fun key seqId hlookup => h.completed _ _ (h'.completed key seqId hlookup)⟩

theorem forgets_invalidateStream (state : WebsocketState) (clientId : ClientId)
    (streamId : StreamId) : Forgets state (state.invalidateStream clientId streamId) := by
  refine ⟨?_, fun key seqId => Assoc.lookup_of_lookup_erase⟩
  intro other assembly hlookup
  unfold invalidateStream removeAssembly at hlookup
  split_ifs at hlookup
  · exact Assoc.lookup_of_lookup_erase hlookup
  · exact hlookup

theorem forgets_foldl_invalidateStream (clientKeys : List (ClientId × StreamId))
    (state : WebsocketState) :
    Forgets state (clientKeys.foldl (fun state clientKey =>
      state.invalidateStream clientKey.1 clientKey.2) state) :=
  List.foldlRecOn _ _ (Forgets.refl state) fun _ h clientKey _ =>
    h.trans (forgets_invalidateStream _ clientKey.1 clientKey.2)

theorem forgets_invalidateClient (state : WebsocketState) (clientId : ClientId) :
    Forgets state (state.invalidateClient clientId) := by
  refine ⟨fun other assembly => Assoc.lookup_of_lookup_erase, ?_⟩
  intro key seqId hlookup
  unfold invalidateClient at hlookup
  generalize state.lastCompletedClientChunkSeqIdByStream.keys.filter
    (fun key => key.1 = clientId) = removed at hlookup
  generalize state.lastCompletedClientChunkSeqIdByStream = map at hlookup ⊢
  induction removed generalizing map with
  | nil => exact hlookup
  | cons first rest ih => exact Assoc.lookup_of_lookup_erase (ih _ hlookup)

theorem forgets_afterClosed (state : WebsocketState) (envelope : ClientEnvelope Value) :
    Forgets state (state.afterClosed envelope) := by
  unfold afterClosed
  split
  · exact forgets_invalidateStream _ _ _
  · exact forgets_invalidateClient _ _
  · exact Forgets.refl state

end WebsocketState

/-- What a step does to the state of the reader. -/
theorem readerStep_state (reader : Reader) (input : ReaderInput Value) :
    (∃ moment attempt envelope wireSizeBytes, input = .message moment attempt envelope wireSizeBytes ∧
      ((readerStep reader input).1.state =
          (reader.state.observeClientMessage moment envelope wireSizeBytes).2 ∨
        ∃ forwarded, Forgets
          ((reader.state.observeClientMessage moment envelope
            wireSizeBytes).2.recordClientMessageDelivery forwarded (clientMessageKey envelope)).1
          (readerStep reader input).1.state ∧
          ∀ entry ∈ ((reader.state.observeClientMessage moment envelope
            wireSizeBytes).2.recordClientMessageDelivery forwarded (clientMessageKey envelope)).2,
            entry ∈ (readerStep reader input).2)) ∨
      seenEnvelopes [input] = [] ∧
        Forgets reader.state (readerStep reader input).1.state := by
  cases input with
  | message moment attempt envelope wireSizeBytes =>
    left
    refine ⟨moment, attempt, envelope, wireSizeBytes, rfl, ?_⟩
    rcases hobserved : reader.state.observeClientMessage moment envelope wireSizeBytes with
      ⟨observation, state⟩
    by_cases hforward : ∃ forwarded, observation = .forward forwarded
    · obtain ⟨forwarded, rfl⟩ := hforward
      rw [readerStep_of_forward hobserved]
      unfold Reader.deliver
      dsimp only
      split_ifs
      · exact .inl rfl
      · exact .inr ⟨forwarded, forgets_afterClosed _ _,
          fun entry hentry => mem_append_right _ hentry⟩
    · rw [readerStep_of_not_forward hobserved (not_exists.mp hforward)]
      exact .inl rfl
  | joined clientKey sent =>
    right
    refine ⟨rfl, ?_⟩
    simp only [readerStep]
    split_ifs
    · exact forgets_invalidateStream _ _ _
    · exact Forgets.refl _
  | sweep now iteration sent =>
    right
    refine ⟨rfl, ?_⟩
    simp only [readerStep]
    split_ifs
    · exact forgets_foldl_invalidateStream _ _
    · exact Forgets.refl _

theorem readerStep_took {reader : Reader} (input : ReaderInput Value)
    (h : Took seen reader.state.clientSegmentReassembler) :
    Took (seen ++ seenEnvelopes [input])
      (readerStep reader input).1.state.clientSegmentReassembler := by
  rcases readerStep_state reader input with
    ⟨moment, attempt, envelope, wireSizeBytes, rfl, hstate⟩ | ⟨hseen, hforgets⟩
  · have htook := took_observeClientMessage moment envelope wireSizeBytes h
    rcases hstate with hstate | ⟨forwarded, hforgets, -⟩
    · rw [hstate]
      exact htook
    · refine All.of_lookup htook fun clientId assembly hlookup => ?_
      have hkept := hforgets.assembly clientId assembly hlookup
      cases hkey : clientMessageKey envelope <;> rwa [hkey] at hkept
  · rw [hseen, append_nil]
    exact All.of_lookup h hforgets.assembly

theorem took_after (inputs : List (ReaderInput Value)) :
    Took (seenEnvelopes inputs)
      (Run.after readerStep Reader.new inputs).state.clientSegmentReassembler := by
  refine Run.invariant (P := fun past reader _ => Took (seenEnvelopes past)
    reader.state.clientSegmentReassembler) readerStep Reader.new ?_ ?_ inputs
  · intro clientId assembly hlookup
    cases hlookup
  · intro past reader log input ih
    have hseen : seenEnvelopes (past ++ [input]) = seenEnvelopes past ++ seenEnvelopes [input] :=
      filterMap_append
    rw [hseen]
    exact readerStep_took input ih

theorem completed_after {reader : Reader} {inputs : List (ReaderInput Value)}
    {key : ClientId × Option StreamId} {seqId : ℕ}
    (h : (Run.after readerStep reader
      inputs).state.lastCompletedClientChunkSeqIdByStream.lookup key = some seqId) :
    reader.state.lastCompletedClientChunkSeqIdByStream.lookup key = some seqId ∨
      .completed key seqId ∈ Run.outputs readerStep reader inputs := by
  refine Run.invariant (P := fun _ reached log =>
    reached.state.lastCompletedClientChunkSeqIdByStream.lookup key = some seqId →
      reader.state.lastCompletedClientChunkSeqIdByStream.lookup key = some seqId ∨
        .completed key seqId ∈ log) readerStep reader ?_ ?_ inputs h
  · exact .inl
  · intro past reached log input ih h
    replace ih := fun hbefore => (ih hbefore).imp_right fun hmem =>
      mem_append_left (readerStep reached input).2 hmem
    rcases readerStep_state reached input with
      ⟨moment, attempt, envelope, wireSizeBytes, rfl, hstate⟩ | ⟨-, hforgets⟩
    · rcases hstate with hstate | ⟨forwarded, hforgets, hlog⟩
      · rw [hstate, lastCompleted_observeClientMessage] at h
        exact ih h
      · have hbefore := hforgets.completed _ _ h
        unfold recordClientMessageDelivery at hbefore hlog
        cases hfound : clientMessageKey envelope with
        | none =>
          rw [hfound, lastCompleted_observeClientMessage] at hbefore
          exact ih hbefore
        | some found =>
          obtain ⟨other, n⟩ := found
          rw [hfound] at hbefore hlog
          rcases Assoc.lookup_insert_cases hbefore with ⟨rfl, rfl⟩ | ⟨-, hold⟩
          · exact .inr (mem_append_right _ (hlog _ (by simp)))
          · rw [lastCompleted_observeClientMessage] at hold
            exact ih hold
    · exact ih (hforgets.completed _ _ h)

end Codex.RemoteControl
