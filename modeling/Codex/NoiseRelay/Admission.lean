import Codex.NoiseRelay.Environment

/-!
# Which streams are opened

Every branch of the loop changes its tables by a few elementary steps (`Tables.Step`), and these keep
the tables consistent: a stream id is not both pending and open, the limits hold, and the instance
ids are those of the opened streams, each different.

On a run, a pending handshake goes back to the frame that brought it.  No frame for its stream id was
handled since then, except for handshakes that the cooldown has turned away: these are answered with
a reset and do not cancel the check that is under way.

`streams_open_safely` combines both along every run (`traced`, by induction on the events); the
exception for the cooldown is `handshake_in_cooldown`.
-/

namespace Codex.NoiseRelay

open Assoc Environment List

variable {η τ κ ι : Type*}

/-! ## Elementary steps -/

namespace Tables

variable (tables : Tables η τ κ ι)

/-- A step that neither starts a check nor opens a stream. -/
inductive Shrink : Tables η τ κ ι → Prop where
  | cancel (streamId : StreamId) :
      Shrink { tables with pendingHandshakes := tables.pendingHandshakes.erase streamId }
  | cancelAll : Shrink { tables with pendingHandshakes := ∅ }
  | join (index : ℕ) :
      Shrink { tables with validationTasks := tables.validationTasks.eraseIdx index }
  | remove (streamId : StreamId) : Shrink { tables with streams := tables.streams.erase streamId }
  | update (streamId : StreamId) (stream : OpenStream τ ι) (virtual : NoiseVirtualStream ι)
      (hstream : tables.streams.lookup streamId = some stream) :
      Shrink { tables with
        streams := tables.streams.insert streamId { stream with virtual := virtual } }
  | leave : Shrink { tables with streams := ∅, pendingHandshakes := ∅, validationTasks := [] }

abbrev Shrinks : Tables η τ κ ι → Tables η τ κ ι → Prop := Relation.ReflTransGen Shrink

/-- A handshake starts to wait for its check. -/
def accept (task : ValidationTask κ) (pending : PendingHandshake η κ) : Tables η τ κ ι :=
  { tables with
    nextValidationId := tables.nextValidationId + 1
    pendingHandshakes := tables.pendingHandshakes.insert task.streamId pending
    validationTasks := tables.validationTasks ++ [task] }

/-- A check is joined and the handshake that waits for it becomes a stream. -/
def activate (index : ℕ) (task : ValidationTask κ) (transport : τ) : Tables η τ κ ι :=
  { tables with
    validationTasks := tables.validationTasks.eraseIdx index
    pendingHandshakes := tables.pendingHandshakes.erase task.streamId
    streams := tables.streams.insert task.streamId
      ⟨task.validationId, transport, .new, tables.opened.length⟩
    opened := tables.opened ++ [⟨task.streamId, task.validationId⟩] }

end Tables

variable (relay : Relay η τ κ ι) (env : Environment η τ κ ι) (event : Event)

/-- The frame of the event is the handshake that starts this check. -/
structure Accepted (task : ValidationTask κ) (pending : PendingHandshake η κ) : Prop where
  frame : ∃ now payload frame request responder, event = .message now (.binary payload) ∧
    relay.decodeRelayMessageFrame payload = some frame ∧ frame.validate = .ok .handshake ∧
    frame.intoHandshakePayload = .ok request ∧ frame.streamId = task.streamId ∧
    env.coolingDown now = false ∧
    relay.readRequest (noiseChannelPrologue relay.environmentId relay.executorRegistrationId
      task.streamId) request = some responder ∧
    authorizationOf responder.payload = some task.authorization ∧
    responder.initiatorPublicKey = task.harnessPublicKey ∧
    pending.handshake = { responder with payload := [] }
  started : task.validationId = env.nextValidationId
  waits : pending.validationId = env.nextValidationId
  notOpen : task.streamId ∉ env.streams
  notPending : task.streamId ∉ env.pendingHandshakes
  room : env.validationTasks.length < maxPendingHandshakeValidations

/-- The event is the positive answer that the pending handshake waits for. -/
structure Authorized (index : ℕ) (task : ValidationTask κ) (pending : PendingHandshake η κ)
    (transport : τ) :
    Prop where
  answer : ∃ now, event = .validated now index true
  joined : env.validationTasks[index]? = some task
  waits : env.pendingHandshakes.lookup task.streamId = some pending
  own : pending.validationId = task.validationId
  complete : ∃ response, relay.complete pending.handshake = some (transport, response)
  room : env.streams.entries.length < maxActiveNoiseRelayStreams

/-- The valid frame that an event brings: when, on which stream and of which kind. -/
def frameOf : Event → Option (ℕ × StreamId × RelayFrameBodyKind)
  | .message now (.binary payload) =>
    match relay.decodeRelayMessageFrame payload with
    | none => none
    | some frame =>
      match frame.validate with
      | .error _ => none
      | .ok kind => some (now, frame.streamId, kind)
  | _ => none

/-- The running loop gets a frame for this stream, and it is not a handshake that is turned away
because of the cooldown. -/
def Handles (streamId : StreamId) : Prop :=
  env.finished = none ∧ ∃ now kind, frameOf relay event = some (now, streamId, kind) ∧
    (kind = .data ∨ kind = .reset ∨ kind = .handshake ∧ env.coolingDown now = false)

/-- A frame is handled for its own stream only. -/
theorem Handles.of_validate {relay : Relay η τ κ ι} {env : Environment η τ κ ι} {now : ℕ}
    {payload : Bytes} {frame : RelayMessageFrame} {kind : RelayFrameBodyKind} {streamId : StreamId}
    (h : Handles relay env (.message now (.binary payload)) streamId)
    (hframe : relay.decodeRelayMessageFrame payload = some frame)
    (hkind : frame.validate = .ok kind) :
    frame.streamId = streamId ∧
      (kind = .data ∨ kind = .reset ∨ kind = .handshake ∧ env.coolingDown now = false) := by
  obtain ⟨-, now', kind', hsome, hwhich⟩ := h
  simp only [frameOf, hframe, hkind, Option.some.injEq, Prod.mk.injEq] at hsome
  obtain ⟨rfl, rfl, rfl⟩ := hsome
  exact ⟨rfl, hwhich⟩

/-- What an event can do to the tables. -/
inductive Outcome (relay : Relay η τ κ ι) (env : Environment η τ κ ι) (event : Event) :
    Tables η τ κ ι → Prop where
  | shrinks {next : Tables η τ κ ι} (h : env.toTables.Shrinks next)
      (hcancel : ∀ streamId, Handles relay env event streamId → streamId ∉ env.streams →
        streamId ∉ next.pendingHandshakes) : Outcome relay env event next
  | accepts {task : ValidationTask κ} {pending : PendingHandshake η κ}
      (h : Accepted relay env event task pending) :
      Outcome relay env event (env.toTables.accept task pending)
  | activates {index : ℕ} {task : ValidationTask κ} {pending : PendingHandshake η κ} {transport : τ}
      (h : Authorized relay env event index task pending transport) :
      Outcome relay env event (env.toTables.activate index task transport)

variable {next : Tables η τ κ ι}

theorem Outcome.of_frameOf_eq_none {relay : Relay η τ κ ι} {env : Environment η τ κ ι}
    {event : Event} (hframe : frameOf relay event = none) (h : env.toTables.Shrinks next) :
    Outcome relay env event next := by
  refine .shrinks h fun streamId hhandles => ?_
  obtain ⟨-, now, kind, hsome, -⟩ := hhandles
  rw [hframe] at hsome
  cases hsome

namespace Environment

variable {env : Environment η τ κ ι} {tables : Tables η τ κ ι} {relay : Relay η τ κ ι}

variable {frame : RelayMessageFrame}

@[simp] theorem toTables_trySend {next : Environment η τ κ ι} (h : env.trySend frame = some next) :
    next.toTables = env.toTables := by
  rw [trySend] at h
  split_ifs at h
  cases h
  rfl

section

variable (env : Environment η τ κ ι)

@[simp] theorem toTables_sendReset (streamId : StreamId) :
    (env.sendReset streamId).toTables = env.toTables := by
  rw [sendReset]
  cases h : env.trySend (.reset streamId noiseRelayResetReason) with
  | none => rfl
  | some next => exact toTables_trySend h

@[simp] theorem toTables_recordFailedHandshake (now : ℕ) :
    (env.recordFailedHandshake now).toTables = env.toTables := by
  rw [recordFailedHandshake]
  split_ifs <;> rfl

theorem toTables_refuse (streamId : StreamId) (now : ℕ) :
    ((env.sendReset streamId).recordFailedHandshake now).toTables = env.toTables := by
  rw [toTables_recordFailedHandshake, toTables_sendReset]

theorem shrinks_handleClosedStream (closed : ClosedNoiseVirtualStream) :
    env.toTables.Shrinks (env.handleClosedStream closed).toTables := by
  rw [handleClosedStream]
  split
  · exact .refl
  · split_ifs
    · rw [toTables_sendReset]
      exact .single (.remove _)
    · exact .refl

omit env in
theorem toTables_foldl_sendReset (streamIds : List StreamId) (env : Environment η τ κ ι) :
    (streamIds.foldl sendReset env).toTables = env.toTables := by
  induction streamIds generalizing env with
  | nil => rfl
  | cons streamId streamIds ih => rw [foldl_cons, ih, toTables_sendReset]

theorem shrinks_handleValidationFailure :
    env.toTables.Shrinks env.handleValidationFailure.toTables := by
  rw [handleValidationFailure, toTables_foldl_sendReset]
  exact .single .cancelAll

variable (relay : Relay η τ κ ι)

theorem shrinks_handleData (now : ℕ) (frame : RelayMessageFrame) :
    env.toTables.Shrinks (env.handleData relay now frame).toTables := by
  rw [handleData]
  split
  · split_ifs
    · rw [toTables_refuse]
      exact .single (.cancel _)
    · rw [toTables_sendReset]
      exact .single (.cancel _)
  · rename_i stream hstream
    split
    · rw [toTables_sendReset]
      exact .single (.remove _)
    · split
      · rw [toTables_sendReset]
        exact .single (.remove _)
      · exact .single (.update _ stream _ hstream)

/-- A data frame cancels the handshake that is pending on its stream. -/
theorem notMem_pending_handleData (now : ℕ) (hclosed : frame.streamId ∉ env.streams) :
    frame.streamId ∉ (env.handleData relay now frame).pendingHandshakes := by
  have hnone : env.streams.lookup frame.streamId = none := AList.lookup_eq_none.mpr hclosed
  rw [handleData, hnone]
  split_ifs
  · rw [toTables_refuse]
    exact fun hmem => (AList.mem_erase.mp hmem).1 rfl
  · rw [toTables_sendReset]
    exact fun hmem => (AList.mem_erase.mp hmem).1 rfl

omit relay in
theorem shrinks_handleHandler (streamId : StreamId) (event : StreamEvent) :
    env.toTables.Shrinks (env.handleHandler streamId event).toTables := by
  rw [handleHandler]
  split
  · exact .refl
  · rename_i stream hstream
    cases event with
    | data seq payload => exact .refl
    | take | close => exact .single (.update _ stream _ hstream)

/-- A handshake outside the cooldown cancels what is pending on its stream, or is accepted. -/
theorem admitHandshake_cases (now : ℕ) (frame : RelayMessageFrame) :
    env.toTables.Shrinks (env.admitHandshake relay now frame).toTables ∧
        (frame.streamId ∉ env.streams →
          frame.streamId ∉ (env.admitHandshake relay now frame).pendingHandshakes) ∨
      ∃ request responder authorization, frame.intoHandshakePayload = .ok request ∧
        relay.readRequest (noiseChannelPrologue relay.environmentId relay.executorRegistrationId
          frame.streamId) request = some responder ∧
        authorizationOf responder.payload = some authorization ∧ frame.streamId ∉ env.streams ∧
        frame.streamId ∉ env.pendingHandshakes ∧
        env.validationTasks.length < maxPendingHandshakeValidations ∧
        (env.admitHandshake relay now frame).toTables = env.toTables.accept
          ⟨frame.streamId, env.nextValidationId, responder.initiatorPublicKey, authorization⟩
          ⟨env.nextValidationId, { responder with payload := [] }⟩ := by
  have hkept : frame.streamId ∉ env.pendingHandshakes → ∀ next : Environment η τ κ ι,
      next.toTables = env.toTables → env.toTables.Shrinks next.toTables ∧
        (frame.streamId ∉ env.streams → frame.streamId ∉ next.pendingHandshakes) := by
    intro hpending next hnext
    rw [hnext]
    exact ⟨.refl, fun _ => hpending⟩
  rw [admitHandshake]
  split_ifs with hopen hpending hfull hbusy
  · refine .inl ⟨?_, fun hclosed => absurd hopen hclosed⟩
    rw [toTables_sendReset]
  · refine .inl ⟨?_, fun _ => ?_⟩
    · rw [toTables_refuse]
      exact .single (.cancel _)
    · rw [toTables_refuse]
      exact fun hmem => (AList.mem_erase.mp hmem).1 rfl
  · exact .inl (hkept hpending _ (toTables_sendReset _ _))
  · exact .inl (hkept hpending _ (toTables_sendReset _ _))
  · cases hrequest : frame.intoHandshakePayload with
    | error error => exact .inl (hkept hpending _ (toTables_sendReset _ _))
    | ok request =>
      dsimp only
      cases hread : relay.readRequest (noiseChannelPrologue relay.environmentId
        relay.executorRegistrationId frame.streamId) request with
      | none => exact .inl (hkept hpending _ (toTables_refuse _ _ _))
      | some responder =>
        dsimp only
        cases hauthorization : authorizationOf responder.payload with
        | none => exact .inl (hkept hpending _ (toTables_refuse _ _ _))
        | some authorization =>
          exact .inr ⟨request, responder, authorization, rfl, hread, hauthorization, hopen,
            hpending, Nat.lt_of_not_le hbusy, rfl⟩

theorem outcome_handleHandshake {now : ℕ} {payload : Bytes}
    (hframe : relay.decodeRelayMessageFrame payload = some frame)
    (hkind : frame.validate = .ok .handshake) :
    Outcome relay env (.message now (.binary payload))
      (env.handleHandshake relay now frame).toTables := by
  have hadmit : ∀ start : Environment η τ κ ι, start.toTables = env.toTables →
      env.coolingDown now = false → Outcome relay env (.message now (.binary payload))
        (start.admitHandshake relay now frame).toTables := by
    intro start hstart hready
    rcases admitHandshake_cases start relay now frame with ⟨hshrinks, hgone⟩ |
      ⟨request, responder, authorization, hrequest, hread, hauthorization, hopen, hpending, hroom,
        haccept⟩
    · rw [hstart] at hshrinks hgone
      refine .shrinks hshrinks fun streamId hhandles => ?_
      obtain ⟨rfl, -⟩ := hhandles.of_validate hframe hkind
      exact hgone
    · rw [hstart] at hopen hpending hroom haccept
      rw [haccept]
      exact .accepts ⟨⟨now, payload, frame, request, responder, rfl, hframe, hkind, hrequest, rfl,
        hready, hread, hauthorization, rfl, rfl⟩, rfl, rfl, hopen, hpending, hroom⟩
  rw [handleHandshake]
  split_ifs with hcooling hafter
  · rw [toTables_sendReset]
    refine .shrinks .refl fun streamId hhandles => ?_
    simpa [hcooling] using (hhandles.of_validate hframe hkind).2
  · exact hadmit { env with failedHandshakes := 0, handshakeCooldownUntil := none } rfl
      (by simpa using hcooling)
  · exact hadmit env rfl (by simpa using hcooling)

theorem outcome_handleFrame (now : ℕ) {payload : Bytes}
    (hframe : relay.decodeRelayMessageFrame payload = some frame) :
    Outcome relay env (.message now (.binary payload))
      (env.handleFrame relay now frame).toTables := by
  rw [handleFrame]
  cases hkind : frame.validate with
  | error error =>
    refine .of_frameOf_eq_none ?_ .refl
    simp [frameOf, hframe, hkind]
  | ok kind =>
    cases kind with
    | ack | resume | heartbeat =>
      exact .shrinks .refl fun _ hhandles => by simpa using (hhandles.of_validate hframe hkind).2
    | reset =>
      refine .shrinks ((Relation.ReflTransGen.single (.cancel frame.streamId)).tail
        (.remove frame.streamId)) fun streamId hhandles _ hmem => ?_
      exact (AList.mem_erase.mp hmem).1 (hhandles.of_validate hframe hkind).1.symm
    | data =>
      refine .shrinks (shrinks_handleData env relay now frame) fun streamId hhandles hclosed => ?_
      obtain ⟨rfl, -⟩ := hhandles.of_validate hframe hkind
      exact notMem_pending_handleData env relay now hclosed
    | handshake =>
      exact outcome_handleHandshake env relay hframe hkind

theorem outcome_handleValidation (now : ℕ) {index : ℕ} {task : ValidationTask κ}
    (htask : env.validationTasks[index]? = some task) (authorized : Bool) :
    Outcome relay env (.validated now index authorized)
      (handleValidation { env with validationTasks := env.validationTasks.eraseIdx index }
        relay now task.streamId task.validationId authorized).toTables := by
  have hjoin : env.toTables.Shrinks { env.toTables with
      validationTasks := env.validationTasks.eraseIdx index } := .single (.join index)
  have hcancel : env.toTables.Shrinks { env.toTables with
      validationTasks := env.validationTasks.eraseIdx index
      pendingHandshakes := env.pendingHandshakes.erase task.streamId } :=
    hjoin.tail (.cancel task.streamId)
  rw [handleValidation]
  cases hpending : env.pendingHandshakes.lookup task.streamId with
  | none => exact .of_frameOf_eq_none rfl hjoin
  | some pending =>
    dsimp only
    split_ifs with hstale hrefused hfull
    · exact .of_frameOf_eq_none rfl hjoin
    · rw [toTables_refuse]
      exact .of_frameOf_eq_none rfl hcancel
    · rw [toTables_sendReset]
      exact .of_frameOf_eq_none rfl hcancel
    · cases hcomplete : relay.complete pending.handshake with
      | none =>
        rw [toTables_refuse]
        exact .of_frameOf_eq_none rfl hcancel
      | some completed =>
        obtain ⟨transport, response⟩ := completed
        dsimp only
        split
        · exact .of_frameOf_eq_none rfl (.single .leave)
        · rename_i next hsent
          have hsame := toTables_trySend hsent
          obtain ⟨tables, failed, cooldown, outgoing, stopped, finished⟩ := next
          subst hsame
          have hauthorized : authorized = true := by simpa using hrefused
          exact .activates ⟨⟨now, by rw [hauthorized]⟩, htask, hpending, not_not.mp hstale,
            ⟨response, hcomplete⟩, Nat.lt_of_not_le hfull⟩

end

/-- What an event does to the tables. -/
theorem outcome_step (relay : Relay η τ κ ι) (env : Environment η τ κ ι) (event : Event)
    (hrunning : env.finished = none) :
    Outcome relay env event (step relay env event).1.toTables := by
  unfold step
  rw [if_neg (by simp [hrunning])]
  cases event with
  | message now message =>
    cases message with
    | binary payload =>
      dsimp only
      rw [handleMessage]
      cases hframe : relay.decodeRelayMessageFrame payload with
      | none =>
        refine .of_frameOf_eq_none ?_ .refl
        simp [frameOf, hframe]
      | some frame => exact outcome_handleFrame env relay now hframe
    | close | none | error => exact .of_frameOf_eq_none rfl (.single .leave)
    | pong | ping | frame | text => exact .of_frameOf_eq_none rfl .refl
  | validated now index authorized =>
    dsimp only
    cases htask : env.validationTasks[index]? with
    | none => exact .of_frameOf_eq_none rfl .refl
    | some task => exact outcome_handleValidation env relay now htask authorized
  | validationFailed index =>
    dsimp only
    split
    · exact .of_frameOf_eq_none rfl .refl
    · exact .of_frameOf_eq_none rfl (.head (.join index) (shrinks_handleValidationFailure
        { env with validationTasks := env.validationTasks.eraseIdx index }))
  | streamClosed serial =>
    dsimp only
    split
    · exact .of_frameOf_eq_none rfl .refl
    · exact .of_frameOf_eq_none rfl (shrinks_handleClosedStream env _)
  | frameWritten =>
    dsimp only
    split <;> exact .of_frameOf_eq_none rfl .refl
  | writerStops reason => exact .of_frameOf_eq_none rfl .refl
  | writerJoined =>
    dsimp only
    split
    · exact .of_frameOf_eq_none rfl .refl
    · exact .of_frameOf_eq_none rfl (.single .leave)
  | frameQueued frame =>
    dsimp only
    cases hsent : env.trySend frame with
    | none => exact .of_frameOf_eq_none rfl .refl
    | some next =>
      rw [Option.getD_some, toTables_trySend hsent]
      exact .of_frameOf_eq_none rfl .refl
  | handler streamId event => exact .of_frameOf_eq_none rfl (shrinks_handleHandler env streamId event)

end Environment

/-! ## Consistent tables -/

/-- What holds of the tables at any time. -/
structure Tables.Consistent (tables : Tables η τ κ ι) : Prop where
  /-- No stream id is both pending and open. -/
  apart : ∀ streamId ∈ tables.pendingHandshakes, streamId ∉ tables.streams
  /-- A pending handshake has an id of its own, which no stream has had. -/
  fresh : ∀ streamId pending, tables.pendingHandshakes.lookup streamId = some pending →
    pending.validationId < tables.nextValidationId ∧
      ∀ closed ∈ tables.opened, closed.instanceId ≠ pending.validationId
  distinct : ∀ streamId pending other pending',
    tables.pendingHandshakes.lookup streamId = some pending →
    tables.pendingHandshakes.lookup other = some pending' →
    pending.validationId = pending'.validationId → streamId = other
  /-- Opened streams have different instance ids. -/
  instances : (tables.opened.map ClosedNoiseVirtualStream.instanceId).Nodup
  named : ∀ closed ∈ tables.opened, closed.instanceId < tables.nextValidationId
  /-- An open stream is the one that was opened under its serial number. -/
  logged : ∀ streamId stream, tables.streams.lookup streamId = some stream →
    tables.opened[stream.serial]? = some ⟨streamId, stream.instanceId⟩
  started : ∀ task ∈ tables.validationTasks, task.validationId < tables.nextValidationId
  active : tables.streams.entries.length ≤ maxActiveNoiseRelayStreams
  validations : tables.validationTasks.length ≤ maxPendingHandshakeValidations

namespace Tables

variable {tables next : Tables η τ κ ι} {streamId : StreamId}

theorem Consistent.new : (new : Environment η τ κ ι).toTables.Consistent where
  apart other hother := absurd hother (AList.notMem_empty other)
  fresh other pending hpending := by cases hpending
  distinct first pending second pending' hfirst := by cases hfirst
  instances := nodup_nil
  named closed hclosed := by cases hclosed
  logged other stream hstream := by cases hstream
  started task htask := by cases htask
  active := Nat.zero_le _
  validations := Nat.zero_le _

/-- Nothing was added to the tables; of a stream only the virtual stream may be another one. -/
structure Within (tables next : Tables η τ κ ι) : Prop where
  pending : ∀ streamId pending, next.pendingHandshakes.lookup streamId = some pending →
    tables.pendingHandshakes.lookup streamId = some pending
  streams : ∀ streamId stream, next.streams.lookup streamId = some stream →
    ∃ virtual, tables.streams.lookup streamId = some { stream with virtual := virtual }
  active : next.streams.entries.length ≤ tables.streams.entries.length
  tasks : next.validationTasks.Sublist tables.validationTasks
  opened : next.opened = tables.opened
  nextId : next.nextValidationId = tables.nextValidationId

theorem Within.refl (tables : Tables η τ κ ι) : tables.Within tables :=
  ⟨fun _ _ h => h, fun _ stream h => ⟨stream.virtual, h⟩, le_rfl, .refl _, rfl, rfl⟩

theorem Shrink.within (h : tables.Shrink next) : tables.Within next := by
  obtain ⟨hpending, hstreams, hactive, htasks, hopened, hnext⟩ := Within.refl tables
  cases h with
  | cancel streamId =>
    exact ⟨fun _ _ => lookup_of_lookup_erase, hstreams, hactive, htasks, hopened, hnext⟩
  | cancelAll => exact ⟨fun _ _ h => (by cases h), hstreams, hactive, htasks, hopened, hnext⟩
  | join index =>
    exact ⟨hpending, hstreams, hactive, eraseIdx_sublist .., hopened, hnext⟩
  | remove streamId =>
    exact ⟨hpending, fun id stream h => hstreams id stream (lookup_of_lookup_erase h),
      length_erase_le .., htasks, hopened, hnext⟩
  | update streamId stream virtual hstream =>
    refine ⟨hpending, fun other changed hchanged => ?_,
      (length_insert_of_mem (mem_of_lookup hstream) _).le, htasks, hopened, hnext⟩
    rcases lookup_insert_cases hchanged with ⟨rfl, rfl⟩ | ⟨-, hold⟩
    · exact ⟨stream.virtual, hstream⟩
    · exact hstreams other changed hold
  | leave =>
    exact ⟨fun _ _ h => (by cases h), fun _ _ h => (by cases h), Nat.zero_le _, nil_sublist _,
      hopened, hnext⟩

theorem Shrinks.within (h : tables.Shrinks next) : tables.Within next := by
  induction h with
  | refl => exact .refl tables
  | tail _ hstep ih =>
    have hlast := hstep.within
    refine ⟨fun id pending h => ih.pending id pending (hlast.pending id pending h),
      fun id stream h => ?_, hlast.active.trans ih.active, hlast.tasks.trans ih.tasks, hlast.opened.trans ih.opened,
      hlast.nextId.trans ih.nextId⟩
    obtain ⟨virtual, hvirtual⟩ := hlast.streams id stream h
    exact ih.streams id { stream with virtual := virtual } hvirtual

theorem Consistent.within (h : tables.Consistent) (hnext : tables.Within next) :
    next.Consistent := by
  have hid := hnext.nextId
  have hopened := hnext.opened
  refine ⟨?_, ?_, ?_, ?_, ?_, ?_, ?_, hnext.active.trans h.active,
    hnext.tasks.length_le.trans h.validations⟩
  · intro streamId hmem hopen
    obtain ⟨pending, hpending⟩ := Option.isSome_iff_exists.mp (AList.lookup_isSome.mpr hmem)
    obtain ⟨stream, hstream⟩ := Option.isSome_iff_exists.mp (AList.lookup_isSome.mpr hopen)
    obtain ⟨virtual, hvirtual⟩ := hnext.streams streamId stream hstream
    exact h.apart streamId (mem_of_lookup (hnext.pending streamId pending hpending))
      (mem_of_lookup hvirtual)
  · rw [hid, hopened]
    exact fun streamId pending hpending => h.fresh _ _ (hnext.pending streamId pending hpending)
  · exact fun first pending second pending' hfirst hsecond => h.distinct _ _ _ _
      (hnext.pending first pending hfirst) (hnext.pending second pending' hsecond)
  · rw [hopened]
    exact h.instances
  · rw [hid, hopened]
    exact h.named
  · intro streamId stream hstream
    obtain ⟨virtual, hvirtual⟩ := hnext.streams streamId stream hstream
    rw [hopened]
    exact h.logged streamId { stream with virtual := virtual } hvirtual
  · rw [hid]
    exact fun task htask => h.started task (hnext.tasks.subset htask)

variable {task : ValidationTask κ} {pending : PendingHandshake η κ}

/-- A pending handshake after one more was accepted is that one, or was pending before. -/
theorem lookup_accept {accepted : PendingHandshake η κ}
    (h : (tables.accept task accepted).pendingHandshakes.lookup streamId = some pending) :
    (streamId = task.streamId ∧ pending = accepted) ∨
      (streamId ≠ task.streamId ∧ tables.pendingHandshakes.lookup streamId = some pending) :=
  lookup_insert_cases h

theorem Consistent.accept (h : tables.Consistent) {accepted : PendingHandshake η κ}
    (hstarted : task.validationId = tables.nextValidationId)
    (hwaits : accepted.validationId = tables.nextValidationId)
    (hopen : task.streamId ∉ tables.streams)
    (hroom : tables.validationTasks.length < maxPendingHandshakeValidations) :
    (tables.accept task accepted).Consistent := by
  refine ⟨?_, ?_, ?_, h.instances, ?_, h.logged, ?_, h.active, ?_⟩
  · intro other hother
    rcases (AList.mem_insert _).mp hother with rfl | hold
    · exact hopen
    · exact h.apart other hold
  · intro other pending hpending
    rcases lookup_accept hpending with ⟨-, rfl⟩ | ⟨-, hold⟩
    · rw [hwaits]
      exact ⟨Nat.lt_succ_self _, fun closed hclosed => (h.named closed hclosed).ne⟩
    · obtain ⟨hlt, hunused⟩ := h.fresh other pending hold
      exact ⟨Nat.lt_succ_of_lt hlt, hunused⟩
  · intro first pending second pending' hfirst hsecond hid
    rcases lookup_accept hfirst with ⟨rfl, rfl⟩ | ⟨-, hold⟩
    · rcases lookup_accept hsecond with ⟨rfl, -⟩ | ⟨-, hold'⟩
      · rfl
      · have := (h.fresh second pending' hold').1
        omega
    · rcases lookup_accept hsecond with ⟨-, rfl⟩ | ⟨-, hold'⟩
      · have := (h.fresh first pending hold).1
        omega
      · exact h.distinct first pending second pending' hold hold' hid
  · exact fun closed hclosed => Nat.lt_succ_of_lt (h.named closed hclosed)
  · intro other hother
    rcases mem_append.mp hother with hold | hnew
    · exact Nat.lt_succ_of_lt (h.started other hold)
    · rw [mem_singleton.mp hnew, hstarted]
      exact Nat.lt_succ_self _
  · rw [Tables.accept, length_append]
    exact hroom

theorem Consistent.activate (h : tables.Consistent) {index : ℕ} {transport : τ}
    (hpending : tables.pendingHandshakes.lookup task.streamId = some pending)
    (hown : pending.validationId = task.validationId)
    (hroom : tables.streams.entries.length < maxActiveNoiseRelayStreams) :
    (tables.activate index task transport).Consistent := by
  obtain ⟨hlt, hunused⟩ := h.fresh task.streamId pending hpending
  rw [hown] at hlt hunused
  have hjoined := h.within (Shrinks.within
    ((Relation.ReflTransGen.single (.cancel task.streamId)).tail (.join index)))
  refine ⟨?_, ?_, hjoined.distinct, ?_, ?_, ?_, hjoined.started, ?_, hjoined.validations⟩
  · intro other hother hmem
    obtain ⟨hne, hold⟩ := AList.mem_erase.mp hother
    rcases (AList.mem_insert _).mp hmem with heq | hstream
    · exact hne heq
    · exact h.apart other hold hstream
  · intro other pending' hother
    have hold := lookup_of_lookup_erase hother
    refine ⟨(h.fresh other pending' hold).1, fun closed hclosed hid => ?_⟩
    rcases mem_append.mp hclosed with hbefore | hnew
    · exact (h.fresh other pending' hold).2 closed hbefore hid
    · rw [mem_singleton.mp hnew] at hid
      obtain rfl := h.distinct task.streamId pending other pending' hpending hold (hown.trans hid)
      rw [Tables.activate, AList.lookup_erase] at hother
      cases hother
  · rw [Tables.activate, map_append, map_singleton]
    refine h.instances.append (nodup_singleton _) ?_
    rw [disjoint_singleton]
    intro hmem
    obtain ⟨closed, hclosed, hid⟩ := mem_map.mp hmem
    exact hunused closed hclosed hid
  · exact forall_mem_append.mpr ⟨h.named, forall_mem_singleton.mpr hlt⟩
  · intro other stream hstream
    rcases lookup_insert_cases hstream with ⟨rfl, rfl⟩ | ⟨-, hold⟩
    · exact getElem?_concat_length
    · have hlogged := h.logged other stream hold
      exact (getElem?_append_left (List.getElem?_eq_some_iff.mp hlogged).1).trans hlogged
  · exact (length_insert_le ..).trans hroom

end Tables

/-! ## Along a run -/

section Run

variable {relay : Relay η τ κ ι} {env : Environment η τ κ ι} {event : Event}

theorem Outcome.consistent (h : Outcome relay env event next) (henv : env.toTables.Consistent) :
    next.Consistent := by
  cases h with
  | shrinks hshrinks => exact henv.within hshrinks.within
  | accepts h => exact henv.accept h.started h.waits h.notOpen h.room
  | activates h => exact henv.activate h.waits h.own h.room

variable {pending : PendingHandshake η κ} {streamId : StreamId}

theorem Accepted.eq_of_handles {task : ValidationTask κ} (h : Accepted relay env event task pending)
    (hhandles : Handles relay env event streamId) : streamId = task.streamId := by
  obtain ⟨now, payload, frame, request, responder, rfl, hframe, hkind, -, hstream, -⟩ := h.frame
  exact (hhandles.of_validate hframe hkind).1.symm.trans hstream

theorem after_concat (relay : Relay η τ κ ι) (events : List Event) (event : Event) :
    after relay (events ++ [event]) = (step relay (after relay events) event).1 :=
  Run.after_concat ..

/-- The handshake of a check, since which no frame for its stream was handled. -/
def Origin (relay : Relay η τ κ ι) (events : List Event) (task : ValidationTask κ)
    (pending : PendingHandshake η κ) : Prop :=
  ∃ before handshake between, events = before ++ handshake :: between ∧
    Accepted relay (Environment.after relay before) handshake task pending ∧
    ∀ front event back, between = front ++ event :: back →
      ¬Handles relay (Environment.after relay (before ++ handshake :: front)) event task.streamId

variable {events : List Event}

theorem Origin.concat {task : ValidationTask κ} (h : Origin relay events task pending)
    (hquiet : ¬Handles relay (after relay events) event task.streamId) :
    Origin relay (events ++ [event]) task pending := by
  obtain ⟨before, handshake, between, rfl, haccepted, hbetween⟩ := h
  refine ⟨before, handshake, between ++ [event], by simp, haccepted, ?_⟩
  intro front other back hsplit
  rcases eq_nil_or_concat back with rfl | ⟨rest, last, rfl⟩
  · obtain ⟨rfl, hlast⟩ := append_inj' hsplit rfl
    cases hlast
    exact hquiet
  · have hinit : between = front ++ other :: rest := by
      have hsame : between ++ [event] = (front ++ other :: rest) ++ [last] := by simpa using hsplit
      exact (append_inj' hsame rfl).1
    exact hbetween front other rest hinit

/-- A stream goes back to the handshake and to the answer to its own check. -/
def Opening (relay : Relay η τ κ ι) (events : List Event) (serial : ℕ)
    (closed : ClosedNoiseVirtualStream) : Prop :=
  ∃ before opening later index task pending transport, events = before ++ opening :: later ∧
    Origin relay before task pending ∧
    Authorized relay (Environment.after relay before) opening index task pending transport ∧
    closed = ⟨task.streamId, task.validationId⟩ ∧
    (Environment.after relay before).opened.length = serial

theorem Opening.concat {serial : ℕ} {closed : ClosedNoiseVirtualStream}
    (h : Opening relay events serial closed) (event : Event) :
    Opening relay (events ++ [event]) serial closed := by
  obtain ⟨before, opening, later, index, task, pending, transport, rfl, hrest⟩ := h
  exact ⟨before, opening, later ++ [event], index, task, pending, transport, by simp, hrest⟩

/-- What holds after the events, with regard to them. -/
structure Traced (relay : Relay η τ κ ι) (events : List Event) : Prop where
  consistent : (Environment.after relay events).toTables.Consistent
  pending : ∀ streamId pending,
    (Environment.after relay events).pendingHandshakes.lookup streamId = some pending →
    ∃ task, task.streamId = streamId ∧ Origin relay events task pending ∧
      ∀ other ∈ (Environment.after relay events).validationTasks,
        other.validationId = pending.validationId → other = task
  opened : ∀ serial closed, (Environment.after relay events).opened[serial]? = some closed →
    Opening relay events serial closed

/-- A pending handshake that stays so after an event that is not for its stream. -/
theorem Traced.keep (h : Traced relay events)
    (hpending : (after relay events).pendingHandshakes.lookup streamId = some pending)
    (hquiet : ¬Handles relay (after relay events) event streamId)
    (htasks : ∀ other ∈ next.validationTasks,
      other ∈ (after relay events).validationTasks ∨
        other.validationId = (after relay events).nextValidationId) :
    ∃ task, task.streamId = streamId ∧ Origin relay (events ++ [event]) task pending ∧
      ∀ other ∈ next.validationTasks, other.validationId = pending.validationId → other = task := by
  obtain ⟨task, rfl, horigin, hown⟩ := h.pending streamId pending hpending
  refine ⟨task, rfl, horigin.concat hquiet, fun other hother hid => ?_⟩
  rcases htasks other hother with hold | hnew
  · exact hown other hold hid
  · have := (h.consistent.fresh _ _ hpending).1
    omega

theorem Outcome.traced (h : Traced relay events)
    (houtcome : Outcome relay (Environment.after relay events) event next) :
    (∀ streamId pending, next.pendingHandshakes.lookup streamId = some pending →
      ∃ task, task.streamId = streamId ∧ Origin relay (events ++ [event]) task pending ∧
        ∀ other ∈ next.validationTasks, other.validationId = pending.validationId → other = task) ∧
    ∀ serial closed, next.opened[serial]? = some closed →
      Opening relay (events ++ [event]) serial closed := by
  cases houtcome with
  | shrinks hshrinks hcancel =>
    refine ⟨fun streamId pending hpending => ?_, fun serial closed hclosed => ?_⟩
    · have hbefore := hshrinks.within.pending _ _ hpending
      refine h.keep hbefore (fun hhandles => ?_) fun other hother =>
        .inl (hshrinks.within.tasks.subset hother)
      exact hcancel streamId hhandles (h.consistent.apart streamId (mem_of_lookup hbefore))
        (mem_of_lookup hpending)
    · rw [hshrinks.within.opened] at hclosed
      exact (h.opened serial closed hclosed).concat event
  | @accepts task accepted haccepted =>
    refine ⟨fun streamId pending hpending => ?_, fun serial closed hclosed =>
      (h.opened serial closed hclosed).concat event⟩
    rcases Tables.lookup_accept hpending with ⟨rfl, rfl⟩ | ⟨hne, hbefore⟩
    · refine ⟨task, rfl, ⟨events, event, [], rfl, haccepted, by simp⟩, fun other hother hid => ?_⟩
      rcases mem_append.mp hother with hold | hnew
      · have := h.consistent.started other hold
        have := haccepted.waits
        omega
      · exact mem_singleton.mp hnew
    · refine h.keep hbefore (fun hhandles => hne (haccepted.eq_of_handles hhandles))
        fun other hother => ?_
      rcases mem_append.mp hother with hold | hnew
      · exact .inl hold
      · rw [mem_singleton.mp hnew]
        exact .inr haccepted.started
  | @activates index task waiting transport hauthorized =>
    obtain ⟨now, rfl⟩ := hauthorized.answer
    refine ⟨fun streamId pending hpending => ?_, fun serial closed hclosed => ?_⟩
    · refine h.keep (lookup_of_lookup_erase hpending) ?_ fun other hother =>
        .inl (mem_of_mem_eraseIdx hother)
      rintro ⟨-, now', kind, hsome, -⟩
      cases hsome
    · rcases Nat.lt_or_ge serial (Environment.after relay events).opened.length with hlt | hge
      · have hold : (Environment.after relay events).opened[serial]? = some closed :=
          (getElem?_append_left hlt).symm.trans hclosed
        exact (h.opened serial closed hold).concat _
      · obtain ⟨other, hstream, horigin, hown⟩ := h.pending _ _ hauthorized.waits
        obtain rfl : task = other :=
          hown task (mem_of_getElem? hauthorized.joined) hauthorized.own.symm
        have hserial : (Environment.after relay events).opened.length = serial := by
          have hbound := (List.getElem?_eq_some_iff.mp hclosed).1
          rw [Tables.activate, length_append, length_singleton] at hbound
          omega
        rw [← hserial] at hclosed
        have hsame : some ⟨task.streamId, task.validationId⟩ = some closed :=
          getElem?_concat_length.symm.trans hclosed
        cases hsame
        exact ⟨events, _, [], index, task, waiting, transport, rfl, horigin, hauthorized, rfl,
          hserial⟩

theorem traced_concat (h : Traced relay events) (event : Event) :
    Traced relay (events ++ [event]) := by
  cases hfinished : (after relay events).finished with
  | none =>
    have houtcome := outcome_step relay _ event hfinished
    rw [← after_concat] at houtcome
    obtain ⟨hpending, hopened⟩ := houtcome.traced h
    exact ⟨houtcome.consistent h.consistent, hpending, hopened⟩
  | some reason =>
    have hstays : after relay (events ++ [event]) = after relay events := by
      rw [after_concat]
      unfold step
      rw [if_pos (by rw [hfinished]; rfl)]
    refine ⟨?_, fun streamId pending hpending => ?_, fun serial closed hclosed => ?_⟩
    · rw [hstays]
      exact h.consistent
    · rw [hstays] at hpending ⊢
      refine h.keep hpending (fun hhandles => ?_) fun other hother => .inl hother
      rw [hhandles.1] at hfinished
      cases hfinished
    · rw [hstays] at hclosed
      exact (h.opened serial closed hclosed).concat event

theorem traced (relay : Relay η τ κ ι) (events : List Event) : Traced relay events := by
  induction events using List.reverseRecOn with
  | nil =>
    refine ⟨.new, fun streamId pending hpending => ?_, fun serial closed hclosed => ?_⟩
    · cases hpending
    · cases hclosed
  | append_singleton events event ih => exact traced_concat ih event

end Run

/-! ## The safety of the loop -/

/-- Along every run: a stream is opened by the positive answer to the check of its own handshake,
and no frame for its stream id was handled in between; no stream id is pending and open; the limits
hold; and a notification removes no other stream than the one that has sent it. -/
theorem streams_open_safely (relay : Relay η τ κ ι) (events : List Event) :
    (∀ serial closed, (Environment.after relay events).opened[serial]? = some closed →
      Opening relay events serial closed) ∧
    (∀ streamId stream, (Environment.after relay events).streams.lookup streamId = some stream →
      (Environment.after relay events).opened[stream.serial]? =
        some ⟨streamId, stream.instanceId⟩) ∧
    (∀ streamId ∈ (Environment.after relay events).pendingHandshakes,
      streamId ∉ (Environment.after relay events).streams) ∧
    (Environment.after relay events).streams.entries.length ≤ maxActiveNoiseRelayStreams ∧
    (Environment.after relay events).validationTasks.length ≤ maxPendingHandshakeValidations ∧
    ∀ serial streamId stream,
      (Environment.after relay events).streams.lookup streamId = some stream →
      stream.serial ≠ serial →
      (Environment.after relay (events ++ [.streamClosed serial])).streams.lookup streamId =
        some stream := by
  have htraced := traced relay events
  refine ⟨htraced.opened, htraced.consistent.logged, htraced.consistent.apart,
    htraced.consistent.active, htraced.consistent.validations, ?_⟩
  intro serial streamId stream hstream hserial
  rw [after_concat]
  have henv := htraced.consistent
  generalize after relay events = env at henv hstream ⊢
  unfold step
  split_ifs with hfinished
  · exact hstream
  · dsimp only
    cases hclosed : env.opened[serial]? with
    | none => exact hstream
    | some closed =>
      dsimp only
      rw [handleClosedStream]
      cases hother : env.streams.lookup closed.streamId with
      | none => exact hstream
      | some other =>
        dsimp only
        split_ifs with hcurrent
        · have hne : streamId ≠ closed.streamId := by
            rintro rfl
            rw [hstream] at hother
            cases hother
            refine hserial ?_
            -- both entries of the log have the same instance id
            have hlogged := henv.logged _ _ hstream
            have hbound := (List.getElem?_eq_some_iff.mp hlogged).1
            refine (getElem?_inj (by rwa [length_map]) henv.instances).mp ?_
            rw [getElem?_map, getElem?_map, hlogged, hclosed, Option.map_some,
              Option.map_some, hcurrent]
          rw [toTables_sendReset]
          exact (AList.lookup_erase_ne hne).trans hstream
        · exact hstream

/-! ## A handshake in the cooldown -/

section Cooldown

/-- Handshakes on two streams: on `a` they can be read, on `b` not. -/
def twoStreams : Relay Unit Unit Unit Unit where
  environmentId := []
  executorRegistrationId := []
  decodeRelayMessageFrame payload :=
    some ⟨1, if payload = [1] then ['a'] else ['b'], some (.handshake payload)⟩
  readRequest _ request := if request = [1] then some ⟨(), (), []⟩ else none
  complete _ := some ((), [])
  decrypt _ _ _ := none
  decode _ := none

def handshakeOn (byte : UInt8) : Event := .message 0 (.binary [byte])

/-- A second handshake on `a` arrives during the cooldown and is answered with a reset, but the check
of the first one goes on and opens the stream. -/
theorem handshake_in_cooldown : frameOf twoStreams (handshakeOn 1) = some (0, ['a'], .handshake) ∧
    (Environment.after twoStreams [handshakeOn 1]).pendingHandshakes.lookup ['a'] =
      some ⟨0, ⟨(), (), []⟩⟩ ∧
    (Environment.after twoStreams ([handshakeOn 1] ++ List.replicate 8 (handshakeOn 2) ++
      [handshakeOn 1, .validated 0 0 true])).opened = [⟨['a'], 0⟩] := by
  refine ⟨by decide, rfl, ?_⟩
  decide

end Cooldown

end Codex.NoiseRelay
