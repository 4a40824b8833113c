import Codex.Lib.Bytes
import Codex.Lib.Run
import Codex.NoiseRelay.VirtualStream

/-!
# The loop of the multiplexed environment

One websocket carries many virtual streams.  The relay at its other end is not trusted: it chooses
the stream ids and may repeat, reset and reuse them.  A handshake waits until the validator has
answered, and only then its stream is opened.

The loop takes one event after another, in any order.  The Noise functions, the decoding of frames
and payloads, and the answers of the validator are arbitrary.  The ids of checks are natural numbers
here; the code counts them as `u64`, which overflows after 2^64 handshakes on one websocket.
-/

namespace Codex.NoiseRelay

open Text

/-! ## Frames -/

abbrev StreamId := Str

def relayMessageFrameVersion : ℕ := 1

def maxActiveNoiseRelayStreams : ℕ := 128

def maxFailedNoiseHandshakes : ℕ := 8

/-- In milliseconds. -/
def noiseHandshakeFailureCooldown : ℕ := 10000

def maxHarnessKeyAuthorizationBytes : ℕ := 4096

def maxPendingHandshakeValidations : ℕ := 32

def noiseRelayResetReason : Str := "noise_relay_protocol_error".toList

structure RelayData where
  seq : ℕ
  segmentIndex : ℕ
  segmentCount : ℕ
  payload : Bytes

inductive Body where
  | data (data : RelayData)
  | ackFrame
  | resume (nextSeq : ℕ)
  | reset (reason : Str)
  | heartbeat
  | handshake (payload : Bytes)

structure RelayMessageFrame where
  version : ℕ
  streamId : StreamId
  body : Option Body

inductive RelayFrameBodyKind where
  | data
  | ack
  | resume
  | reset
  | heartbeat
  | handshake
  deriving DecidableEq

namespace RelayMessageFrame

def handshake (streamId : StreamId) (payload : Bytes) : RelayMessageFrame :=
  ⟨relayMessageFrameVersion, streamId, some (.handshake payload)⟩

def reset (streamId : StreamId) (reason : Str) : RelayMessageFrame :=
  ⟨relayMessageFrameVersion, streamId, some (.reset reason)⟩

/-- The kind of a frame that has all its required fields. -/
def validate (frame : RelayMessageFrame) : Except Str RelayFrameBodyKind :=
  if frame.version ≠ relayMessageFrameVersion then
    .error ("unsupported relay message frame version ".toList ++ (toString frame.version).toList)
  else if trim frame.streamId = [] then
    .error "relay message frame is missing stream_id".toList
  else
    match frame.body with
    | some (.data data) =>
      if data.segmentIndex ≠ 0 ∨ data.segmentCount ≠ 1 ∨ data.payload = [] then
        .error "relay data message frame is missing required fields".toList
      else .ok .data
    | some .ackFrame => .ok .ack
    | some (.resume _) => .ok .resume
    | some (.reset reason) =>
      if reason = [] then .error "relay reset message frame is missing reason".toList
      else .ok .reset
    | some .heartbeat => .ok .heartbeat
    | some (.handshake payload) =>
      if payload = [] then .error "relay handshake message frame is missing payload".toList
      else .ok .handshake
    | none => .error "relay message frame is missing body".toList

def intoData (frame : RelayMessageFrame) : Except Str RelayData :=
  match frame.validate with
  | .error error => .error error
  | .ok kind =>
    if kind ≠ .data then .error "expected relay data message frame".toList
    else
      match frame.body with
      | some (.data data) => .ok data
      | _ => .error "expected relay data message frame".toList

def intoHandshakePayload (frame : RelayMessageFrame) : Except Str Bytes :=
  match frame.validate with
  | .error error => .error error
  | .ok kind =>
    if kind ≠ .handshake then .error "expected relay handshake message frame".toList
    else
      match frame.body with
      | some (.handshake payload) => .ok payload
      | _ => .error "expected relay handshake message frame".toList

end RelayMessageFrame

/-! ## The prologue -/

/-- `str::as_bytes` -/
def textBytes (s : Str) : Bytes := (Bytes.asBytes s).map UInt8.ofNat

/-- `u64::to_be_bytes` -/
def toBeBytes64 (n : ℕ) : Bytes :=
  toBeBytes (n / 2 ^ 32) ++ toBeBytes n

def prologueDomain : Str := "codex-exec-server-relay-noise/v1".toList

def prologuePart (part : Bytes) : Bytes := toBeBytes64 part.length ++ part

def noiseChannelPrologue (environmentId executorRegistrationId streamId : Str) : Bytes :=
  prologuePart (textBytes prologueDomain) ++ prologuePart (textBytes environmentId) ++
    prologuePart (textBytes executorRegistrationId) ++ prologuePart (textBytes streamId)

/-! ## The state of the loop -/

structure PendingResponderHandshake (η κ : Type*) where
  handshake : η
  initiatorPublicKey : κ
  payload : Bytes

structure PendingHandshake (η κ : Type*) where
  validationId : ℕ
  handshake : PendingResponderHandshake η κ

/-- A check of the registry that has been started and not been joined. -/
structure ValidationTask (κ : Type*) where
  streamId : StreamId
  validationId : ℕ
  harnessPublicKey : κ
  authorization : Bytes

structure OpenStream (τ ι : Type*) where
  instanceId : ℕ
  transport : τ
  virtual : NoiseVirtualStream ι
  /-- How many streams were opened before this one. -/
  serial : ℕ

/-- The notification that the tasks of a stream send when they end. -/
structure ClosedNoiseVirtualStream where
  streamId : StreamId
  instanceId : ℕ
  deriving DecidableEq

inductive RendezvousDisconnectReason where
  | peerClose
  | readError
  | writeError
  | pongTimeout
  | localShutdown
  deriving DecidableEq

/-- The tables of the loop. -/
structure Tables (η τ κ ι : Type*) where
  streams : AList fun _ : StreamId => OpenStream τ ι
  pendingHandshakes : AList fun _ : StreamId => PendingHandshake η κ
  validationTasks : List (ValidationTask κ)
  nextValidationId : ℕ
  /-- All streams that were opened, each as its tasks name it. -/
  opened : List ClosedNoiseVirtualStream

structure Environment (η τ κ ι : Type*) extends Tables η τ κ ι where
  failedHandshakes : ℕ
  handshakeCooldownUntil : Option ℕ
  /-- The frames that wait for the writer. -/
  physicalOutgoing : List RelayMessageFrame
  /-- Why the writer has stopped, if it has. -/
  writerStopped : Option RendezvousDisconnectReason
  finished : Option RendezvousDisconnectReason

/-- What the loop is given. -/
structure Relay (η τ κ ι : Type*) where
  environmentId : Str
  executorRegistrationId : Str
  decodeRelayMessageFrame : Bytes → Option RelayMessageFrame
  /-- The first message of a handshake, with its prologue. -/
  readRequest : Bytes → Bytes → Option (PendingResponderHandshake η κ)
  complete : PendingResponderHandshake η κ → Option (τ × Bytes)
  /-- Decrypts the next record, given how many were decrypted before. -/
  decrypt : τ → ℕ → Bytes → Option Bytes
  decode : Bytes → Option ι

inductive WebsocketMessage where
  | binary (payload : Bytes)
  | text
  | ping
  | pong
  | frame
  | close
  | error
  | none

inductive Event where
  | message (now : ℕ) (message : WebsocketMessage)
  /-- A check has ended with an answer of the validator. -/
  | validated (now : ℕ) (index : ℕ) (authorized : Bool)
  /-- A check has ended without an answer. -/
  | validationFailed (index : ℕ)
  /-- A notification of the stream that was opened after so many others. -/
  | streamClosed (serial : ℕ)
  /-- The writer sends a frame. -/
  | frameWritten
  | writerStops (reason : RendezvousDisconnectReason)
  | writerJoined
  /-- The writer task of a stream queues a frame. -/
  | frameQueued (frame : RelayMessageFrame)
  /-- The handler of a stream takes a payload, or closes its queue. -/
  | handler (streamId : StreamId) (event : StreamEvent)

namespace Environment

variable {η τ κ ι : Type*} (env : Environment η τ κ ι)

def new : Environment η τ κ ι where
  streams := ∅
  pendingHandshakes := ∅
  validationTasks := []
  nextValidationId := 0
  opened := []
  failedHandshakes := 0
  handshakeCooldownUntil := none
  physicalOutgoing := []
  writerStopped := none
  finished := none

/-- `try_send` on the channel of the writer. -/
def trySend (frame : RelayMessageFrame) : Option (Environment η τ κ ι) :=
  if env.writerStopped.isSome ∨ channelCapacity ≤ env.physicalOutgoing.length then none
  else some { env with physicalOutgoing := env.physicalOutgoing ++ [frame] }

def sendReset (streamId : StreamId) : Environment η τ κ ι :=
  (env.trySend (.reset streamId noiseRelayResetReason)).getD env

def recordFailedHandshake (now : ℕ) : Environment η τ κ ι :=
  if env.handshakeCooldownUntil.isSome then env
  else if maxFailedNoiseHandshakes ≤ env.failedHandshakes + 1 then
    { env with
      failedHandshakes := env.failedHandshakes + 1
      handshakeCooldownUntil := some (now + noiseHandshakeFailureCooldown) }
  else { env with failedHandshakes := env.failedHandshakes + 1 }

/-- The end of the loop: all streams are disconnected and all checks are aborted. -/
def leave (reason : RendezvousDisconnectReason) : Environment η τ κ ι :=
  { env with
    streams := ∅
    pendingHandshakes := ∅
    validationTasks := []
    finished := some reason }

/-! ## The branches of the loop -/

def handleClosedStream (closed : ClosedNoiseVirtualStream) : Environment η τ κ ι :=
  match env.streams.lookup closed.streamId with
  | none => env
  | some stream =>
    if stream.instanceId = closed.instanceId then
      sendReset { env with streams := env.streams.erase closed.streamId } closed.streamId
    else env

variable (relay : Relay η τ κ ι)

/-- The answer to the check of one handshake. -/
def handleValidation (now : ℕ) (streamId : StreamId) (validationId : ℕ) (authorized : Bool) :
    Environment η τ κ ι :=
  match env.pendingHandshakes.lookup streamId with
  | none => env
  | some pending =>
    if pending.validationId ≠ validationId then env
    else
      let env := { env with pendingHandshakes := env.pendingHandshakes.erase streamId }
      if authorized = false then (env.sendReset streamId).recordFailedHandshake now
      else if maxActiveNoiseRelayStreams ≤ env.streams.entries.length then env.sendReset streamId
      else
        match relay.complete pending.handshake with
        | none => (env.sendReset streamId).recordFailedHandshake now
        | some (transport, response) =>
          match env.trySend (.handshake streamId response) with
          | none => env.leave .localShutdown
          | some env =>
            { env with
              streams := env.streams.insert streamId
                ⟨validationId, transport, .new, env.opened.length⟩
              opened := env.opened ++ [⟨streamId, validationId⟩] }

def handleValidationFailure : Environment η τ κ ι :=
  env.pendingHandshakes.keys.foldl sendReset { env with pendingHandshakes := ∅ }

/-- The authorization that a handshake carries. -/
def authorizationOf (payload : Bytes) : Option Bytes :=
  if Bytes.validUtf8 (payload.map UInt8.toNat) ∧ payload.length ≤ maxHarnessKeyAuthorizationBytes
  then some payload
  else none

variable (now : ℕ) (frame : RelayMessageFrame)

/-- A handshake that arrives outside the cooldown. -/
def admitHandshake : Environment η τ κ ι :=
  let streamId := frame.streamId
  if streamId ∈ env.streams then env.sendReset streamId
  else if streamId ∈ env.pendingHandshakes then
    (sendReset { env with pendingHandshakes := env.pendingHandshakes.erase streamId }
      streamId).recordFailedHandshake now
  else if maxActiveNoiseRelayStreams ≤ env.streams.entries.length then env.sendReset streamId
  else if maxPendingHandshakeValidations ≤ env.validationTasks.length then env.sendReset streamId
  else
    match frame.intoHandshakePayload with
    | .error _ => env.sendReset streamId
    | .ok request =>
      match relay.readRequest (noiseChannelPrologue relay.environmentId
        relay.executorRegistrationId streamId) request with
      | none => (env.sendReset streamId).recordFailedHandshake now
      | some pending =>
        match authorizationOf pending.payload with
        | none => (env.sendReset streamId).recordFailedHandshake now
        | some authorization =>
          { env with
            nextValidationId := env.nextValidationId + 1
            pendingHandshakes := env.pendingHandshakes.insert streamId
              ⟨env.nextValidationId, { pending with payload := [] }⟩
            validationTasks := env.validationTasks ++ [⟨streamId, env.nextValidationId,
              pending.initiatorPublicKey, authorization⟩] }

/-- New handshakes are not admitted after too many failures. -/
def coolingDown : Bool := env.handshakeCooldownUntil.any (now < ·)

def handleHandshake : Environment η τ κ ι :=
  if env.coolingDown now then env.sendReset frame.streamId
  else if env.handshakeCooldownUntil.isSome then
    admitHandshake { env with failedHandshakes := 0, handshakeCooldownUntil := none } relay now frame
  else env.admitHandshake relay now frame

/-- Data for a stream that is not open cancels its pending handshake; data that the stream rejects
closes it. -/
def handleData : Environment η τ κ ι :=
  let streamId := frame.streamId
  match env.streams.lookup streamId with
  | none =>
    let canceled := sendReset
      { env with pendingHandshakes := env.pendingHandshakes.erase streamId } streamId
    if streamId ∈ env.pendingHandshakes then canceled.recordFailedHandshake now else canceled
  | some stream =>
    match frame.intoData with
    | .error _ => sendReset { env with streams := env.streams.erase streamId } streamId
    | .ok data =>
      match receiveData (relay.decrypt stream.transport) relay.decode stream.virtual data.seq
        data.payload with
      | (_, .error _) => sendReset { env with streams := env.streams.erase streamId } streamId
      | (virtual, .ok ()) =>
        { env with
          streams := env.streams.insert streamId { stream with virtual := virtual } }

def handleReset (streamId : StreamId) : Environment η τ κ ι :=
  { env with
    pendingHandshakes := env.pendingHandshakes.erase streamId
    streams := env.streams.erase streamId }

def handleFrame : Environment η τ κ ι :=
  match frame.validate with
  | .error _ => env
  | .ok .handshake => env.handleHandshake relay now frame
  | .ok .data => env.handleData relay now frame
  | .ok .reset => env.handleReset frame.streamId
  | .ok .ack => env
  | .ok .resume => env
  | .ok .heartbeat => env

def handleMessage : WebsocketMessage → Environment η τ κ ι
  | .binary payload =>
    match relay.decodeRelayMessageFrame payload with
    | none => env
    | some frame => env.handleFrame relay now frame
  | .close => env.leave .peerClose
  | .none => env.leave .peerClose
  | .error => env.leave .readError
  | .pong => env
  | .ping => env
  | .frame => env
  | .text => env

/-- What the handler of a stream does to its queue.  Data comes from the loop only. -/
def handleHandler (streamId : StreamId) (event : StreamEvent) : Environment η τ κ ι :=
  match env.streams.lookup streamId with
  | none => env
  | some stream =>
    match event with
    | .data _ _ => env
    | .take =>
      { env with streams := env.streams.insert streamId { stream with
          virtual := { stream.virtual with incoming := stream.virtual.incoming.tail } } }
    | .close =>
      { env with streams := env.streams.insert streamId { stream with
          virtual := { stream.virtual with closed := true } } }

/-- One event, and the frames that it puts on the websocket. -/
def step (env : Environment η τ κ ι) (event : Event) :
    Environment η τ κ ι × List RelayMessageFrame :=
  if env.finished.isSome then (env, [])
  else
    match event with
    | .message now message => (env.handleMessage relay now message, [])
    | .validated now index authorized =>
      match env.validationTasks[index]? with
      | none => (env, [])
      | some task =>
        (handleValidation { env with validationTasks := env.validationTasks.eraseIdx index }
          relay now task.streamId task.validationId authorized, [])
    | .validationFailed index =>
      match env.validationTasks[index]? with
      | none => (env, [])
      | some _ =>
        (handleValidationFailure
          { env with validationTasks := env.validationTasks.eraseIdx index }, [])
    | .streamClosed serial =>
      match env.opened[serial]? with
      | none => (env, [])
      | some closed => (env.handleClosedStream closed, [])
    | .frameWritten =>
      match env.writerStopped, env.physicalOutgoing with
      | none, frame :: frames => ({ env with physicalOutgoing := frames }, [frame])
      | _, _ => (env, [])
    | .writerStops reason =>
      ({ env with writerStopped := some (env.writerStopped.getD reason) }, [])
    | .writerJoined =>
      match env.writerStopped with
      | none => (env, [])
      | some reason => (env.leave reason, [])
    | .frameQueued frame => ((env.trySend frame).getD env, [])
    | .handler streamId event => (env.handleHandler streamId event, [])

/-- The state after the events. -/
def after (events : List Event) : Environment η τ κ ι :=
  Run.after (step relay) new events

end Environment

end Codex.NoiseRelay
