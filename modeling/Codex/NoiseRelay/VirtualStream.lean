import Codex.NoiseRelay.MessageFraming

/-!
# One virtual stream

The sender frames its payloads, cuts them into records, numbers and encrypts them.  The relay may
drop, repeat and reorder the records.  The receiver puts them in order, decrypts them, takes the
payloads off and puts each into the queue of its handler.  A record decrypts exactly when its turn
has come.

Whatever the relay does, what has been put into the queue is the beginning of what was sent
(`consistent_run`).
-/

namespace Codex.NoiseRelay

open OrderedCiphertextFrames List

variable {ι : Type*}

def channelCapacity : ℕ := 128

/-! ## Receiving -/

structure NoiseVirtualStream (ι : Type*) where
  inboundCiphertexts : OrderedCiphertextFrames
  /-- How many records the transport has decrypted. -/
  received : ℕ
  inboundDecoder : MessageDecoder
  /-- The queue of the handler. -/
  incoming : List ι
  /-- The handler does not read its queue any more. -/
  closed : Bool
  /-- All payloads that were put into the queue. -/
  delivered : List Bytes

def NoiseVirtualStream.new : NoiseVirtualStream ι where
  inboundCiphertexts := .new
  received := 0
  inboundDecoder := .new
  incoming := []
  closed := false
  delivered := []

section Receive

variable (decrypt : ℕ → Bytes → Option Bytes) (decode : Bytes → Option ι)

/-- The inner loop of `receive_data`: the payloads of one record. -/
def deliver (stream : NoiseVirtualStream ι) :
    List Bytes → NoiseVirtualStream ι × Except RelayError Unit
  | [] => (stream, .ok ())
  | message :: messages =>
    match decode message with
    | none => (stream, .error .decodeFailed)
    | some incoming =>
      if stream.closed ∨ channelCapacity ≤ stream.incoming.length then
        (stream, .error .queueFullOrClosed)
      else
        deliver { stream with
          incoming := stream.incoming ++ [incoming]
          delivered := stream.delivered ++ [message] } messages

/-- The outer loop of `receive_data`: the records that have become contiguous. -/
def receiveRun (stream : NoiseVirtualStream ι) :
    List Bytes → NoiseVirtualStream ι × Except RelayError Unit
  | [] => (stream, .ok ())
  | ciphertext :: ciphertexts =>
    match decrypt stream.received ciphertext with
    | none => (stream, .error .decryptionFailed)
    | some plaintext =>
      match stream.inboundDecoder.push plaintext with
      | (decoder, .error error) =>
        ({ stream with received := stream.received + 1, inboundDecoder := decoder }, .error error)
      | (decoder, .ok messages) =>
        match deliver decode
          { stream with received := stream.received + 1, inboundDecoder := decoder }
          messages with
        | (stream, .error error) => (stream, .error error)
        | (stream, .ok ()) => receiveRun stream ciphertexts

def receiveData (stream : NoiseVirtualStream ι) (seq : ℕ) (payload : Bytes) :
    NoiseVirtualStream ι × Except RelayError Unit :=
  match stream.inboundCiphertexts.push seq payload with
  | (ciphertexts, .error error) => ({ stream with inboundCiphertexts := ciphertexts }, .error error)
  | (ciphertexts, .ok run) =>
    receiveRun decrypt decode { stream with inboundCiphertexts := ciphertexts } run

inductive StreamEvent where
  | data (seq : ℕ) (payload : Bytes)
  /-- The handler takes the oldest payload from its queue. -/
  | take
  | close

/-- A stream and the error that has ended it. -/
structure StreamState (ι : Type*) where
  stream : NoiseVirtualStream ι
  error : Option RelayError

def StreamState.new : StreamState ι := ⟨.new, none⟩

def StreamState.next (state : StreamState ι) : StreamEvent → StreamState ι
  | .data seq payload =>
    if state.error.isSome then state
    else
      match receiveData decrypt decode state.stream seq payload with
      | (stream, .ok ()) => ⟨stream, none⟩
      | (stream, .error error) => ⟨stream, some error⟩
  | .take => { state with stream := { state.stream with incoming := state.stream.incoming.tail } }
  | .close => { state with stream := { state.stream with closed := true } }

def StreamState.run (events : List StreamEvent) : StreamState ι :=
  events.foldl (StreamState.next decrypt decode) .new

theorem run_append_singleton (events : List StreamEvent) (event : StreamEvent) :
    StreamState.run decrypt decode (events ++ [event]) =
      (StreamState.run decrypt decode events).next decrypt decode event :=
  foldl_concat ..

end Receive

/-! ## Sending -/

/-- The records of the writer task, as long as it can frame the payloads. -/
def writtenRecords : List Bytes → List Bytes
  | [] => []
  | payload :: payloads =>
    match frameMessage payload with
    | .error _ => []
    | .ok framed => chunks noiseRecordPlaintextLen framed ++ writtenRecords payloads

theorem flatten_writtenRecords {payloads : List Bytes}
    (hsend : ∀ payload ∈ payloads, Sendable payload) :
    (writtenRecords payloads).flatten = payloads.flatMap framed := by
  induction payloads with
  | nil => rfl
  | cons payload payloads ih =>
    have hframe : frameMessage payload = .ok (framed payload) :=
      frameMessage_eq_ok_iff.mpr ⟨hsend payload mem_cons_self, rfl⟩
    have hrest := ih fun other hother => hsend other (mem_cons_of_mem _ hother)
    rw [writtenRecords, hframe]
    rw [flatten_append, flatten_chunks (by decide), hrest, flatMap_cons]

theorem length_le_of_mem_writtenRecords {payloads : List Bytes} {record : Bytes}
    (h : record ∈ writtenRecords payloads) : record.length ≤ noiseRecordPlaintextLen := by
  induction payloads with
  | nil => cases h
  | cons payload payloads ih =>
    rw [writtenRecords] at h
    split at h
    · cases h
    · rcases mem_append.mp h with hchunk | hrest
      · exact length_le_of_mem_chunks hchunk
      · exact ih hrest

/-- Decryption succeeds exactly when the ciphertext is that of the record whose turn it is. -/
def DecryptsInOrder (decrypt : ℕ → Bytes → Option Bytes) (cipher : ℕ → Bytes)
    (records : List Bytes) : Prop :=
  ∀ i ciphertext plaintext, decrypt i ciphertext = some plaintext ↔
    records[i]? = some plaintext ∧ ciphertext = cipher i

/-! ## Nothing but the beginning of what was sent -/

section Sound

variable {decrypt : ℕ → Bytes → Option Bytes} {decode : Bytes → Option ι} {cipher : ℕ → Bytes}
  {payloads records : List Bytes} {stream : NoiseVirtualStream ι}

/-- A cut of the bytes of some payloads into records. -/
structure Cut (payloads records : List Bytes) : Prop where
  sendable : ∀ payload ∈ payloads, Sendable payload
  bytes : records.flatten = payloads.flatMap framed
  small : ∀ record ∈ records, record.length ≤ noiseRecordPlaintextLen

theorem Cut.writtenRecords (hsend : ∀ payload ∈ payloads, Sendable payload) :
    Cut payloads (writtenRecords payloads) :=
  ⟨hsend, flatten_writtenRecords hsend, fun _ => length_le_of_mem_writtenRecords⟩

/-- The payloads of the decrypted records are delivered, and the decoder has the rest of them. -/
def InStep (payloads records : List Bytes) (stream : NoiseVirtualStream ι) : Prop :=
  ∃ rest, payloads = stream.delivered ++ rest ∧
    Unread stream.inboundDecoder.buffered (records.drop stream.received).flatten rest

variable (hcut : Cut payloads records)
include hcut

theorem InStep.new : InStep payloads records (.new : NoiseVirtualStream ι) := by
  refine ⟨payloads, rfl, ?_⟩
  change Unread [] records.flatten payloads
  rw [hcut.bytes]
  exact .start payloads

/-- The record whose turn it is completes the payloads that come next. -/
theorem InStep.push (h : InStep payloads records stream) {plaintext : Bytes}
    (hrecord : records[stream.received]? = some plaintext) :
    ∃ decoder messages rest, stream.inboundDecoder.push plaintext = (decoder, .ok messages) ∧
      payloads = stream.delivered ++ (messages ++ rest) ∧
      Unread decoder.buffered (records.drop (stream.received + 1)).flatten rest := by
  obtain ⟨rest, hpayloads, hunread⟩ := h
  have hdrop : (records.drop stream.received).flatten =
      plaintext ++ (records.drop (stream.received + 1)).flatten := by
    obtain ⟨hlt, hget⟩ := List.getElem?_eq_some_iff.mp hrecord
    rw [drop_eq_getElem_cons hlt, hget, flatten_cons]
  rw [hdrop] at hunread
  have hsend : ∀ payload ∈ rest, Sendable payload := fun payload hmem =>
    hcut.sendable payload (by rw [hpayloads]; exact mem_append_right _ hmem)
  obtain ⟨messages, later, rfl, hmessages, hafter⟩ := push_unread hsend
    (hcut.small plaintext (mem_of_getElem? hrecord)) hunread
  exact ⟨_, messages, later, Prod.ext rfl hmessages, hpayloads, hafter⟩

/-- What comes of payloads of which some are put into the queue, one after another. -/
structure Puts (stream : NoiseVirtualStream ι) (messages put : List Bytes)
    (result : NoiseVirtualStream ι × Except RelayError Unit) : Prop where
  first : put <+: messages
  delivered : result.1.delivered = stream.delivered ++ put
  ciphertexts : result.1.inboundCiphertexts = stream.inboundCiphertexts
  decoder : result.1.inboundDecoder = stream.inboundDecoder
  received : result.1.received = stream.received
  counted : result.2 ≠ .error .underflow
  all : result.2 = .ok () → put = messages

omit hcut in
theorem Puts.none (messages : List Bytes) {error : RelayError} (herror : error ≠ .underflow) :
    Puts stream messages [] (stream, .error error) :=
  ⟨List.nil_prefix, by simp, rfl, rfl, rfl, by simpa using herror, by simp⟩

omit hcut in
theorem exists_puts (decode : Bytes → Option ι) (stream : NoiseVirtualStream ι)
    (messages : List Bytes) : ∃ put, Puts stream messages put (deliver decode stream messages) := by
  induction messages generalizing stream with
  | nil => exact ⟨[], prefix_rfl, by simp [deliver], rfl, rfl, rfl, by simp [deliver], by simp⟩
  | cons message messages ih =>
    rw [deliver]
    cases decode message with
    | none => exact ⟨[], .none _ (by simp)⟩
    | some incoming =>
      split_ifs with hfull
      · exact ⟨[], .none _ (by simp)⟩
      · obtain ⟨put, hput⟩ := ih { stream with
          incoming := stream.incoming ++ [incoming]
          delivered := stream.delivered ++ [message] }
        refine ⟨message :: put, cons_prefix_cons.mpr ⟨rfl, hput.first⟩, ?_,
          hput.ciphertexts, hput.decoder, hput.received, hput.counted,
          fun hok => by rw [hput.all hok]⟩
        rw [hput.delivered, List.append_assoc, singleton_append]

/-- What holds of a stream after a call, whether it failed or not. -/
structure Received (payloads records : List Bytes) (ciphertexts : OrderedCiphertextFrames)
    (result : NoiseVirtualStream ι × Except RelayError Unit) : Prop where
  first : result.1.delivered <+: payloads
  inStep : result.2 = .ok () → InStep payloads records result.1
  ciphertexts : result.1.inboundCiphertexts = ciphertexts
  counted : result.2 ≠ .error .underflow

variable (hdecrypt : DecryptsInOrder decrypt cipher records)
include hdecrypt

theorem received_run (ciphertexts : List Bytes) (hstep : InStep payloads records stream) :
    Received payloads records stream.inboundCiphertexts
      (receiveRun decrypt decode stream ciphertexts) := by
  induction ciphertexts generalizing stream with
  | nil =>
    obtain ⟨rest, hpayloads, -⟩ := id hstep
    exact ⟨⟨rest, hpayloads.symm⟩, fun _ => hstep, rfl, by simp [receiveRun]⟩
  | cons ciphertext ciphertexts ih =>
    obtain ⟨rest, hpayloads, hunread⟩ := id hstep
    rw [receiveRun]
    cases hplain : decrypt stream.received ciphertext with
    | none => exact ⟨⟨rest, hpayloads.symm⟩, by simp, rfl, by simp⟩
    | some plaintext =>
      obtain ⟨hrecord, -⟩ := (hdecrypt _ _ _).mp hplain
      obtain ⟨decoder, messages, later, hpush, hnext, hafter⟩ := hstep.push hcut hrecord
      dsimp only
      rw [hpush]
      dsimp only
      obtain ⟨put, hput⟩ := exists_puts decode { stream with
        received := stream.received + 1
        inboundDecoder := decoder } messages
      generalize deliver decode _ messages = result at hput ⊢
      obtain ⟨after, outcome⟩ := result
      cases outcome with
      | error error =>
        refine ⟨?_, by simp, hput.ciphertexts, hput.counted⟩
        rw [hput.delivered, hnext]
        exact prefix_append_right_inj _ |>.mpr (hput.first.trans (prefix_append _ _))
      | ok =>
        have hall : put = messages := hput.all rfl
        have hinStep : InStep payloads records after := by
          refine ⟨later, ?_, ?_⟩
          · rw [hput.delivered, hall, List.append_assoc, hnext]
          · rw [hput.decoder, hput.received]
            exact hafter
        have hrest := ih hinStep
        rw [hput.ciphertexts] at hrest
        exact hrest

/-- What holds of a stream along every run. -/
structure Consistent (payloads records : List Bytes) (state : StreamState ι) : Prop where
  first : state.stream.delivered <+: payloads
  inStep : state.error = none → InStep payloads records state.stream
  window : state.stream.inboundCiphertexts.InWindow
  counted : state.error ≠ some .underflow

theorem consistent_next {state : StreamState ι} (hstate : Consistent payloads records state)
    (event : StreamEvent) : Consistent payloads records (state.next decrypt decode event) := by
  cases event with
  | take | close => exact ⟨hstate.first, hstate.inStep, hstate.window, hstate.counted⟩
  | data seq payload =>
    rw [StreamState.next]
    split_ifs with hfailed
    · exact hstate
    · have hrunning : state.error = none := by simpa using hfailed
      have hstep := hstate.inStep hrunning
      obtain ⟨hwindow, hcounted⟩ := inWindow_push seq payload hstate.window
      have hreceived : Received payloads records (state.stream.inboundCiphertexts.push seq payload).1
          (receiveData decrypt decode state.stream seq payload) := by
        rw [receiveData]
        cases hpush : state.stream.inboundCiphertexts.push seq payload with
        | mk ciphertexts outcome =>
          rw [hpush] at hcounted
          cases outcome with
          | error error =>
            obtain ⟨rest, hpayloads, -⟩ := hstep
            exact ⟨⟨rest, hpayloads.symm⟩, by simp, rfl, by simpa using hcounted⟩
          | ok run =>
            have hstart : InStep payloads records
                { state.stream with inboundCiphertexts := ciphertexts } := hstep
            exact received_run hcut hdecrypt run hstart
      rw [← hreceived.ciphertexts] at hwindow
      generalize receiveData decrypt decode state.stream seq payload = result at hreceived hwindow
      obtain ⟨after, outcome⟩ := result
      cases outcome with
      | error error =>
        exact ⟨hreceived.first, by simp, hwindow, by simpa using hreceived.counted⟩
      | ok => exact ⟨hreceived.first, fun _ => hreceived.inStep rfl, hwindow, by simp⟩

theorem consistent_run (events : List StreamEvent) :
    Consistent payloads records (StreamState.run decrypt decode events) := by
  induction events using List.reverseRecOn with
  | nil =>
    exact ⟨List.nil_prefix, fun _ => .new hcut, InWindow.new,
      by simp [StreamState.run, StreamState.new]⟩
  | append_singleton events event ih =>
    rw [run_append_singleton]
    exact consistent_next hcut hdecrypt ih event

end Sound

end Codex.NoiseRelay
