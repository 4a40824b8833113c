import Codex.Lib.Text

/-!
# The envelopes of the remote control protocol

A server and its clients exchange envelopes over a websocket.  Each belongs to a client
and one of its streams and carries a sequence number.  A message that is too long for one
envelope is sent as numbered chunks in base64.
-/

namespace Codex.RemoteControl

open Text

structure ClientId where
  text : Str
  deriving DecidableEq, Repr

structure StreamId where
  text : Str
  deriving DecidableEq, Repr

/-- A JSON-RPC message; what the transport does not look at is a `Value`. -/
inductive JsonRpcMessage (Value : Type) where
  | request (method : Str) (rest : Value)
  | notification (method : Str) (rest : Value)
  | response (rest : Value)
  | error (rest : Value)
  deriving DecidableEq, Repr

/-- `remote_control_message_starts_connection`. -/
def JsonRpcMessage.startsConnection {Value : Type} : JsonRpcMessage Value → Bool
  | request method _ => method = "initialize".toList
  | _ => false

inductive ClientEvent (Value : Type) where
  | clientMessage (message : JsonRpcMessage Value)
  | clientMessageChunk (segmentId segmentCount messageSizeBytes : ℕ) (messageChunkBase64 : Str)
  | ack (segmentId : Option ℕ)
  | ping
  | clientClosed
  deriving DecidableEq, Repr

def ClientEvent.isChunk {Value : Type} : ClientEvent Value → Bool
  | clientMessageChunk _ _ _ _ => true
  | _ => false

structure ClientEnvelope (Value : Type) where
  event : ClientEvent Value
  clientId : ClientId
  streamId : Option StreamId
  seqId : Option ℕ
  cursor : Option Str
  deriving DecidableEq, Repr

end Codex.RemoteControl
