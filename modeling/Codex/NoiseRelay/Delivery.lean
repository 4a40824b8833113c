import Codex.NoiseRelay.VirtualStream

/-!
# A stream whose records all arrive

If every record arrives, within the window and the bytes of the buffer, and the queue of the handler
has room for the payloads, then all payloads are delivered and there is no error.  A ledger says what
has arrived and how many payloads wait; `Orderly` says on the ledger alone that the limits are kept.
The stream follows the ledger (`Follows`).

The limit of the queue is needed: a handler that does not read its queue loses the stream.

`delivers_sent_payloads` has both halves: that whatever arrives the delivered payloads are the
first of those sent comes from `VirtualStream`, that all are delivered from `follows_foldl`.
`delivery_refused` has the streams that fail.
-/

namespace Codex.NoiseRelay

open OrderedCiphertextFrames List

variable {ι : Type*}

/-! ## Complete payloads -/

/-- How many payloads are complete in the first bytes. -/
def completeIn : List Bytes → ℕ → ℕ
  | [], _ => 0
  | payload :: payloads, bytes =>
    if (framed payload).length ≤ bytes then completeIn payloads (bytes - (framed payload).length) + 1
    else 0

theorem completeIn_eq {buffered future : Bytes} {rest : List Bytes}
    (hunread : Unread buffered future rest) (front : List Bytes) :
    completeIn (front ++ rest) ((front.flatMap framed).length + buffered.length) = front.length := by
  induction front with
  | nil =>
    cases hrest : rest with
    | nil => rfl
    | cons payload later =>
      have hshort := hunread.short payload (by simp [hrest])
      simp [completeIn, hshort]
  | cons payload front ih =>
    rw [cons_append, completeIn, flatMap_cons, length_append, if_pos (by omega), length_cons, ← ih]
    congr 2
    omega

theorem completeIn_mono (payloads : List Bytes) {few many : ℕ} (hle : few ≤ many) :
    completeIn payloads few ≤ completeIn payloads many := by
  induction payloads generalizing few many with
  | nil => rfl
  | cons payload payloads ih =>
    rw [completeIn, completeIn]
    split_ifs with hfew hmany
    · exact Nat.succ_le_succ (ih (by omega))
    · omega
    · exact Nat.zero_le _
    · exact Nat.le_refl _

/-- How many payloads are complete in the first records. -/
def completeAt (payloads records : List Bytes) (count : ℕ) : ℕ :=
  completeIn payloads (records.take count).flatten.length

theorem completeAt_mono (payloads records : List Bytes) {few many : ℕ} (hle : few ≤ many) :
    completeAt payloads records few ≤ completeAt payloads records many := by
  refine completeIn_mono payloads ?_
  obtain ⟨more, rfl⟩ := Nat.exists_eq_add_of_le hle
  rw [take_add, flatten_append, length_append]
  exact Nat.le_add_right _ _

/-! ## Orderly arrival -/

/-- What has arrived of a stream, and how many payloads wait in the queue. -/
structure Ledger where
  arrived : Finset ℕ
  waiting : ℕ

section Orderly

variable (payloads records : List Bytes) (cipher : ℕ → Bytes)

/-- How many payloads are complete in the records up to the first that is missing. -/
def completed (arrived : Finset ℕ) : ℕ :=
  completeAt payloads records (expected arrived)

/-- The bytes of the records that have arrived behind the first that is missing. -/
def bufferedBytes (arrived : Finset ℕ) : ℕ :=
  ∑ seq ∈ arrived with expected arrived < seq, (cipher seq).length

def Ledger.next (ledger : Ledger) : StreamEvent → Ledger
  | .data seq _ =>
    ⟨insert seq ledger.arrived, ledger.waiting +
      (completed payloads records (insert seq ledger.arrived) -
        completed payloads records ledger.arrived)⟩
  | .take => { ledger with waiting := ledger.waiting - 1 }
  | .close => ledger

/-- A record of the stream arrives within the window and the bytes, and there is room in the queue
for the payloads that it completes.  The handler keeps its queue open. -/
def Ledger.Admits (ledger : Ledger) : StreamEvent → Prop
  | .data seq payload =>
    seq < records.length ∧ payload = cipher seq ∧
    seq ≤ expected ledger.arrived + maxReorderDistance ∧
    (expected ledger.arrived < seq → seq ∉ ledger.arrived →
      bufferedBytes cipher ledger.arrived + payload.length ≤ maxPendingBytes) ∧
    (ledger.next payloads records (.data seq payload)).waiting ≤ channelCapacity
  | .take => True
  | .close => False

def Orderly (ledger : Ledger) : List StreamEvent → Prop
  | [] => True
  | event :: events =>
    ledger.Admits payloads records cipher event ∧
      Orderly (ledger.next payloads records event) events

end Orderly

/-! ## The stream follows the ledger -/

section Complete

variable {decrypt : ℕ → Bytes → Option Bytes} {decode : Bytes → Option ι} {cipher : ℕ → Bytes}
  {payloads records : List Bytes} {stream : NoiseVirtualStream ι} {ledger : Ledger}
  {state : StreamState ι}

section

variable (hcut : Cut payloads records)
include hcut

theorem InStep.length_delivered (h : InStep payloads records stream) :
    stream.delivered.length = completeAt payloads records stream.received := by
  obtain ⟨rest, hpayloads, hunread⟩ := h
  have hbytes : (records.take stream.received).flatten =
      stream.delivered.flatMap framed ++ stream.inboundDecoder.buffered := by
    apply append_cancel_right
    rw [← flatten_append, take_append_drop, hcut.bytes, hpayloads, flatMap_append,
      List.append_assoc, hunread.bytes]
  rw [completeAt, hbytes, length_append, hpayloads, completeIn_eq hunread]

omit hcut in
theorem deliver_ok (stream : NoiseVirtualStream ι) (messages : List Bytes)
    (hdecode : ∀ message ∈ messages, (decode message).isSome) (hopen : stream.closed = false)
    (hroom : stream.incoming.length + messages.length ≤ channelCapacity) :
    (deliver decode stream messages).2 = .ok () ∧
      (deliver decode stream messages).1.closed = false ∧
      (deliver decode stream messages).1.incoming.length =
        stream.incoming.length + messages.length := by
  induction messages generalizing stream with
  | nil => exact ⟨rfl, hopen, rfl⟩
  | cons message messages ih =>
    obtain ⟨incoming, hincoming⟩ := Option.isSome_iff_exists.mp (hdecode message mem_cons_self)
    rw [length_cons] at hroom
    have hfree : ¬(stream.closed ∨ channelCapacity ≤ stream.incoming.length) := by
      rintro (hclosed | hfull)
      · rw [hopen] at hclosed
        cases hclosed
      · omega
    rw [deliver, hincoming]
    dsimp only
    rw [if_neg hfree]
    have hgrown : (stream.incoming ++ [incoming]).length = stream.incoming.length + 1 :=
      length_append
    have hrest : (stream.incoming ++ [incoming]).length + messages.length ≤ channelCapacity := by
      omega
    obtain ⟨hok, hclosed, hlength⟩ := ih { stream with
      incoming := stream.incoming ++ [incoming]
      delivered := stream.delivered ++ [message] }
      (fun other hother => hdecode other (mem_cons_of_mem _ hother)) hopen hrest
    refine ⟨hok, hclosed, ?_⟩
    rw [hlength, hgrown, length_cons]
    omega

/-- One record after another is decrypted and its payloads are put into the queue, as long as there
is room for them. -/
theorem receiveRun_ok (hdecrypt : DecryptsInOrder decrypt cipher records)
    (hdecode : ∀ payload ∈ payloads, (decode payload).isSome) (count : ℕ)
    (hstep : InStep payloads records stream) (hopen : stream.closed = false)
    (hcount : stream.received + count ≤ records.length)
    (hroom : stream.incoming.length + (completeAt payloads records (stream.received + count) -
      stream.delivered.length) ≤ channelCapacity) :
    ∃ after, receiveRun decrypt decode stream ((List.range' stream.received count).map cipher) =
        (after, .ok ()) ∧
      InStep payloads records after ∧ after.closed = false ∧
      after.inboundCiphertexts = stream.inboundCiphertexts ∧
      after.received = stream.received + count ∧
      after.incoming.length + stream.delivered.length =
        stream.incoming.length + after.delivered.length := by
  induction count generalizing stream with
  | zero => exact ⟨stream, rfl, hstep, hopen, rfl, rfl, rfl⟩
  | succ count ih =>
    obtain ⟨plaintext, hrecord⟩ : ∃ plaintext, records[stream.received]? = some plaintext :=
      ⟨_, getElem?_eq_getElem (by omega)⟩
    have hplain : decrypt stream.received (cipher stream.received) = some plaintext :=
      (hdecrypt _ _ _).mpr ⟨hrecord, rfl⟩
    obtain ⟨decoder, messages, later, hpush, hnext, hafter⟩ := hstep.push hcut hrecord
    obtain ⟨put, hput⟩ := exists_puts decode { stream with
      received := stream.received + 1
      inboundDecoder := decoder } messages
    have hknown : ∀ message ∈ messages, (decode message).isSome := fun message hmem =>
      hdecode message (by rw [hnext]; simp [hmem])
    -- the payloads of this record are among those that the whole run completes
    have hpart : stream.delivered.length + messages.length ≤
        completeAt payloads records (stream.received + (count + 1)) := by
      have hone : InStep payloads records { stream with
          received := stream.received + 1
          inboundDecoder := decoder
          delivered := stream.delivered ++ messages } :=
        ⟨later, by rw [List.append_assoc, hnext], hafter⟩
      rw [← length_append]
      refine (hone.length_delivered hcut).trans_le (completeAt_mono payloads records ?_)
      change stream.received + 1 ≤ _
      omega
    have hfits : stream.incoming.length + messages.length ≤ channelCapacity := by omega
    obtain ⟨hok, hclosed, hlength⟩ := deliver_ok { stream with
      received := stream.received + 1
      inboundDecoder := decoder } messages hknown hopen hfits
    rw [range'_succ, map_cons, receiveRun, hplain]
    dsimp only
    rw [hpush]
    dsimp only
    generalize deliver decode _ messages = result at hput hok hclosed hlength ⊢
    obtain ⟨middle, outcome⟩ := result
    dsimp only at hok hclosed hlength
    subst hok
    obtain ⟨-, hdelivered, hciphertexts, hdecoder, hreceived, -, hall⟩ := hput
    obtain rfl : put = messages := hall rfl
    dsimp only at hdelivered hciphertexts hdecoder hreceived
    have hmiddle : InStep payloads records middle := by
      refine ⟨later, ?_, ?_⟩
      · rw [hdelivered, List.append_assoc, hnext]
      · rw [hdecoder, hreceived]
        exact hafter
    have hsum : stream.received + 1 + count = stream.received + (count + 1) := by omega
    have hmore : middle.delivered.length = stream.delivered.length + put.length := by
      rw [hdelivered, length_append]
    obtain ⟨after, hrun, hinStep, hafterOpen, hkept, hcounted, hqueue⟩ :=
      ih hmiddle hclosed (by omega) (by rw [hreceived, hsum]; omega)
    rw [hreceived] at hrun
    refine ⟨after, hrun, hinStep, hafterOpen, hkept.trans hciphertexts, ?_, ?_⟩
    · omega
    · omega

/-- A stream without an error that has handled what the ledger says. -/
structure Follows (payloads records : List Bytes) (cipher : ℕ → Bytes) (ledger : Ledger)
    (state : StreamState ι) : Prop where
  running : state.error = none
  inStep : InStep payloads records state.stream
  window : state.stream.inboundCiphertexts.InWindow
  next : state.stream.inboundCiphertexts.nextSeq = expected ledger.arrived
  holds : OrderedCiphertextFrames.Holds cipher ledger.arrived state.stream.inboundCiphertexts
  received : state.stream.received = expected ledger.arrived
  arrived : ∀ seq ∈ ledger.arrived, seq < records.length
  waiting : state.stream.incoming.length = ledger.waiting
  isOpen : state.stream.closed = false

section Events

variable (hdecrypt : DecryptsInOrder decrypt cipher records)
  (hdecode : ∀ payload ∈ payloads, (decode payload).isSome) (hfew : records.length < 2 ^ 32 - 1)
include hdecrypt hdecode hfew

theorem follows_data (h : Follows payloads records cipher ledger state) {seq : ℕ} {payload : Bytes}
    (hadmits : ledger.Admits payloads records cipher (.data seq payload)) :
    Follows payloads records cipher (ledger.next payloads records (.data seq payload))
      (state.next decrypt decode (.data seq payload)) := by
  obtain ⟨hseq, rfl, hahead, hbytes, hroom⟩ := hadmits
  have harrived : ∀ other ∈ insert seq ledger.arrived, other < records.length := by
    intro other hother
    rcases Finset.mem_insert.mp hother with rfl | hold
    · exact hseq
    · exact h.arrived other hold
  have hle := expected_le harrived
  obtain ⟨hnext, hholds, hpush⟩ := holds_push h.window h.holds h.next hahead
    (by rw [h.window.counted, h.holds.keptBytes_eq h.next]; exact hbytes) (by omega)
  have hwindow := (inWindow_push seq (cipher seq) h.window).1
  have hgrows : expected ledger.arrived ≤ expected (insert seq ledger.arrived) :=
    expected_mono (Finset.subset_insert seq ledger.arrived)
  have hdelivered := h.inStep.length_delivered hcut
  rw [h.received] at hdelivered
  cases hresult : state.stream.inboundCiphertexts.push seq (cipher seq) with
  | mk ciphertexts outcome =>
    rw [hresult] at hnext hholds hpush hwindow
    subst hpush
    have hstart : InStep payloads records
      { state.stream with inboundCiphertexts := ciphertexts } := h.inStep
    have hsum : state.stream.received + (expected
        (insert seq ledger.arrived) - expected ledger.arrived) =
        expected (insert seq ledger.arrived) := by
      rw [h.received]
      omega
    obtain ⟨after, hrun, hinStep, hopen, hkept, hreceived, hqueue⟩ := receiveRun_ok hcut hdecrypt
      hdecode _ hstart h.isOpen (hsum.trans_le hle) (by
        rw [hsum, h.waiting, hdelivered]
        exact hroom)
    dsimp only at hrun hkept hreceived hqueue
    rw [hsum] at hreceived
    have hstate : state.next decrypt decode (.data seq (cipher seq)) = ⟨after, none⟩ := by
      rw [h.received] at hrun
      rw [StreamState.next, h.running, receiveData, hresult]
      dsimp only
      rw [h.received, hrun]
      rfl
    have hafter := hinStep.length_delivered hcut
    rw [hreceived] at hafter
    rw [hstate]
    refine ⟨rfl, hinStep, ?_, ?_, ?_, hreceived, harrived, ?_, hopen⟩
    · rw [hkept]
      exact hwindow
    · rw [hkept]
      exact hnext
    · rw [hkept]
      exact hholds
    · have hwaiting := h.waiting
      have hmono := completeAt_mono payloads records hgrows
      rw [Ledger.next, completed, completed]
      dsimp only
      omega

/-- What has arrived and what waits after some events. -/
def Ledger.after (payloads records : List Bytes) (ledger : Ledger) (events : List StreamEvent) :
    Ledger :=
  events.foldl (Ledger.next payloads records) ledger

theorem follows_foldl (events : List StreamEvent) (h : Follows payloads records cipher ledger state)
    (horderly : Orderly payloads records cipher ledger events) :
    Follows payloads records cipher (ledger.after payloads records events)
      (events.foldl (StreamState.next decrypt decode) state) := by
  induction events generalizing ledger state with
  | nil => exact h
  | cons event events ih =>
    refine ih ?_ horderly.2
    cases event with
    | data seq payload => exact follows_data hcut hdecrypt hdecode hfew h horderly.1
    | close => exact horderly.1.elim
    | take =>
      refine ⟨h.running, h.inStep, h.window, h.next, h.holds, h.received, h.arrived, ?_, h.isOpen⟩
      change state.stream.incoming.tail.length = ledger.waiting - 1
      rw [length_tail, h.waiting]

end Events

theorem follows_new : Follows payloads records cipher ⟨∅, 0⟩ (.new : StreamState ι) := by
  have hstart : expected ∅ = 0 :=
    expected_eq (fun k hk => absurd hk (Nat.not_lt_zero k)) (by simp)
  refine ⟨rfl, .new hcut, .new, hstart.symm, ⟨?_, ?_⟩, hstart.symm, by simp, rfl, rfl⟩
  · exact fun seq hseq => absurd hseq (Nat.not_lt_zero seq)
  · intro seq
    exact AList.lookup_empty seq

end

theorem subset_arrived_after (ledger : Ledger) (events : List StreamEvent) :
    ledger.arrived ⊆ (ledger.after payloads records events).arrived := by
  induction events generalizing ledger with
  | nil => exact Finset.Subset.refl _
  | cons event events ih =>
    refine Finset.Subset.trans ?_ (ih (ledger.next payloads records event))
    cases event with
    | data seq payload => exact Finset.subset_insert seq ledger.arrived
    | take | close => exact Finset.Subset.refl _

theorem mem_arrived_after {events : List StreamEvent} {seq : ℕ} {payload : Bytes}
    (h : .data seq payload ∈ events) (ledger : Ledger) :
    seq ∈ (ledger.after payloads records events).arrived := by
  induction events generalizing ledger with
  | nil => cases h
  | cons event events ih =>
    rcases mem_cons.mp h with rfl | hlater
    · exact subset_arrived_after _ events (Finset.mem_insert_self seq ledger.arrived)
    · exact ih hlater _

theorem Follows.delivered_eq (h : Follows payloads records cipher ledger state)
    (hall : ∀ seq < records.length, seq ∈ ledger.arrived) :
    state.stream.delivered = payloads := by
  have hend : state.stream.received = records.length := by
    rw [h.received]
    refine Nat.le_antisymm (expected_le h.arrived) ?_
    by_contra hlt
    exact expected_notMem _ (hall _ (Nat.lt_of_not_le hlt))
  obtain ⟨rest, hpayloads, hunread⟩ := h.inStep
  rw [hend, drop_length] at hunread
  rw [hpayloads, hunread.rest_eq_nil, append_nil]

end Complete

/-! ## Payloads of one record each -/

section Short

variable {payloads : List Bytes} {cipher : ℕ → Bytes}

/-- A payload that fits into one record. -/
def Short (payload : Bytes) : Prop :=
  Sendable payload ∧ (framed payload).length ≤ noiseRecordPlaintextLen

theorem writtenRecords_of_short (hshort : ∀ payload ∈ payloads, Short payload) :
    writtenRecords payloads = payloads.map framed := by
  induction payloads with
  | nil => rfl
  | cons payload payloads ih =>
    obtain ⟨hsend, hlength⟩ := hshort payload mem_cons_self
    have hframe : frameMessage payload = .ok (framed payload) :=
      frameMessage_eq_ok_iff.mpr ⟨hsend, rfl⟩
    have hne : framed payload ≠ [] := by
      intro hnil
      have hzero := congrArg List.length hnil
      rw [length_framed, lengthPrefixBytes, length_nil] at hzero
      omega
    rw [writtenRecords, hframe]
    dsimp only
    rw [chunks_of_length_le hne hlength,
      ih fun other hother => hshort other (mem_cons_of_mem _ hother)]
    rfl

theorem completeAt_map_framed (payloads : List Bytes) (count : ℕ) :
    completeAt payloads (payloads.map framed) count = min count payloads.length := by
  have hunread : Unread [] ((payloads.drop count).flatMap framed) (payloads.drop count) := .start _
  have hcomplete := completeIn_eq hunread (payloads.take count)
  rw [take_append_drop, length_nil, Nat.add_zero, length_take] at hcomplete
  rw [completeAt, ← map_take, ← flatMap_def, hcomplete]

theorem expected_range (count : ℕ) : expected (Finset.range count) = count :=
  expected_eq (fun _ hk => Finset.mem_range.mpr hk) (by simp)

theorem completed_range {count : ℕ} (h : count ≤ payloads.length) :
    completed payloads (payloads.map framed) (Finset.range count) = count := by
  rw [completed, expected_range, completeAt_map_framed, Nat.min_eq_left h]

/-- The records one after another, each once. -/
def inOrder (cipher : ℕ → Bytes) (start count : ℕ) : List StreamEvent :=
  (List.range' start count).map fun seq => .data seq (cipher seq)

theorem orderly_inOrder {start waiting : ℕ} (count : ℕ) (hcount : start + count ≤ payloads.length)
    (hroom : waiting + count ≤ channelCapacity) :
    Orderly payloads (payloads.map framed) cipher ⟨Finset.range start, waiting⟩
        (inOrder cipher start count) ∧
      Ledger.after payloads (payloads.map framed) ⟨Finset.range start, waiting⟩
        (inOrder cipher start count) = ⟨Finset.range (start + count), waiting + count⟩ := by
  induction count generalizing start waiting with
  | zero => exact ⟨trivial, rfl⟩
  | succ count ih =>
    have hnext : Ledger.next payloads (payloads.map framed) ⟨Finset.range start, waiting⟩
        (.data start (cipher start)) = ⟨Finset.range (start + 1), waiting + 1⟩ := by
      rw [Ledger.next, ← Finset.range_add_one, completed_range (by omega), completed_range (by omega),
        Nat.add_sub_cancel_left]
    obtain ⟨horderly, hafter⟩ := @ih (start + 1) (waiting + 1) (by omega) (by omega)
    rw [inOrder, range'_succ, map_cons]
    refine ⟨⟨⟨?_, rfl, ?_, ?_, ?_⟩, ?_⟩, ?_⟩
    · rw [length_map]
      omega
    · rw [expected_range]
      omega
    · rw [expected_range]
      omega
    · rw [hnext]
      dsimp only
      omega
    · rw [hnext]
      exact horderly
    · rw [Ledger.after, foldl_cons, hnext]
      refine hafter.trans ?_
      rw [Nat.add_assoc start, Nat.add_assoc waiting, Nat.add_comm 1]

end Short

/-! ## A handler that does not take the payloads -/

section Refused

variable {decrypt : ℕ → Bytes → Option Bytes} {decode : Bytes → Option ι} {cipher : ℕ → Bytes}
  {payloads : List Bytes}

/-- The handler takes no payload: its queue is closed or full, or it cannot decode any. -/
def Refuses (decode : Bytes → Option ι) (stream : NoiseVirtualStream ι) : Prop :=
  stream.closed ∨ channelCapacity ≤ stream.incoming.length ∨ ∀ payload, decode payload = none

theorem deliver_refused (stream : NoiseVirtualStream ι) (hrefuses : Refuses decode stream)
    {messages : List Bytes} (hmessages : messages ≠ []) :
    ∃ after error, deliver decode stream messages = (after, .error error) := by
  cases messages with
  | nil => exact absurd rfl hmessages
  | cons message messages =>
    rw [deliver]
    cases hdecode : decode message with
    | none => exact ⟨_, _, rfl⟩
    | some incoming =>
      have hfull : stream.closed ∨ channelCapacity ≤ stream.incoming.length := by
        rcases hrefuses with hclosed | hlength | hnone
        · exact .inl hclosed
        · exact .inr hlength
        · rw [hnone message] at hdecode
          cases hdecode
      dsimp only
      rw [if_pos hfull]
      exact ⟨_, _, rfl⟩

/-- The next record of a stream whose payloads have one record each is not taken. -/
theorem next_refused (hcut : Cut payloads (payloads.map framed))
    (hdecrypt : DecryptsInOrder decrypt cipher (payloads.map framed))
    (hfew : payloads.length < 2 ^ 32 - 1) {start : ℕ} (hstart : start < payloads.length)
    {state : StreamState ι} (hrunning : state.error = none)
    (hinStep : InStep payloads (payloads.map framed) state.stream)
    (hwindow : state.stream.inboundCiphertexts.InWindow)
    (hholds : OrderedCiphertextFrames.Holds cipher (Finset.range start)
      state.stream.inboundCiphertexts)
    (hnext : state.stream.inboundCiphertexts.nextSeq = start)
    (hreceived : state.stream.received = start) (hrefuses : Refuses decode state.stream) :
    (state.next decrypt decode (.data start (cipher start))).error ≠ none := by
  have hpush : (state.stream.inboundCiphertexts.push start (cipher start)).2 = _ :=
    (holds_push hwindow hholds (by rw [expected_range, hnext])
      (by rw [expected_range]; omega) (by rw [expected_range]; omega)
      (by rw [← Finset.range_add_one, expected_range]; omega)).2.2
  rw [← Finset.range_add_one, expected_range, expected_range, Nat.add_sub_cancel_left,
    range'_one, map_singleton] at hpush
  rcases hpushed : state.stream.inboundCiphertexts.push start (cipher start) with ⟨kept, released⟩
  rw [hpushed] at hpush
  obtain ⟨plaintext, hrecord⟩ : ∃ plaintext,
      (payloads.map framed)[state.stream.received]? = some plaintext :=
    ⟨_, getElem?_eq_getElem (by rw [length_map]; omega)⟩
  have hplain : decrypt state.stream.received (cipher start) = some plaintext :=
    (hdecrypt _ _ _).mpr ⟨hrecord, by rw [hreceived]⟩
  obtain ⟨decoder, messages, later, hdecoded, hpayloads, hafter⟩ := hinStep.push hcut hrecord
  have hmessages : messages ≠ [] := by
    rintro rfl
    have hbefore := hinStep.length_delivered hcut
    have hthen : InStep payloads (payloads.map framed) { state.stream with
        received := state.stream.received + 1
        inboundDecoder := decoder } := ⟨later, hpayloads, hafter⟩
    have hsame := hthen.length_delivered hcut
    rw [completeAt_map_framed] at hbefore hsame
    dsimp only at hsame
    omega
  obtain ⟨after, error, hdeliver⟩ := deliver_refused { state.stream with
    inboundCiphertexts := kept
    received := state.stream.received + 1
    inboundDecoder := decoder } hrefuses hmessages
  have hdata : receiveData decrypt decode state.stream start (cipher start) =
      (after, .error error) := by
    rw [receiveData, hpushed]
    dsimp only at hpush ⊢
    rw [hpush]
    dsimp only
    rw [receiveRun]
    rw [hplain]
    dsimp only
    rw [hdecoded]
    dsimp only
    rw [hdeliver]
  rw [StreamState.next, hrunning, hdata]
  simp

end Refused

/-! ## What is delivered -/

/-- Whatever arrives, the payloads delivered before the first error are the first of those sent, and
the buffer is counted.  All payloads are delivered if all records arrive within the limits. -/
theorem delivers_sent_payloads {payloads : List Bytes}
    (hsend : ∀ payload ∈ payloads, Sendable payload)
    (hfew : (writtenRecords payloads).length < 2 ^ 32 - 1) {decrypt : ℕ → Bytes → Option Bytes}
    {cipher : ℕ → Bytes} (hdecrypt : DecryptsInOrder decrypt cipher (writtenRecords payloads))
    (decode : Bytes → Option ι) (events : List StreamEvent) :
    (StreamState.run decrypt decode events).stream.delivered <+: payloads ∧
    ((∀ payload ∈ payloads, (decode payload).isSome) →
      Orderly payloads (writtenRecords payloads) cipher ⟨∅, 0⟩ events →
      (∀ seq < (writtenRecords payloads).length, ∃ payload, .data seq payload ∈ events) →
      (StreamState.run decrypt decode events).error = none ∧
        (StreamState.run decrypt decode events).stream.delivered = payloads) ∧
    (StreamState.run decrypt decode events).stream.inboundCiphertexts.pendingBytes =
      (StreamState.run decrypt decode events).stream.inboundCiphertexts.keptBytes ∧
    (StreamState.run decrypt decode events).stream.inboundCiphertexts.pending.entries.length ≤
      maxReorderDistance ∧
    (StreamState.run decrypt decode events).error ≠ some .underflow := by
  have hcut := Cut.writtenRecords hsend
  have hconsistent : Consistent payloads (writtenRecords payloads)
    (StreamState.run decrypt decode events) := consistent_run hcut hdecrypt events
  refine ⟨hconsistent.first, fun hdecode horderly hall => ?_, hconsistent.window.counted,
    hconsistent.window.length_le, hconsistent.counted⟩
  have hfollows : Follows payloads (writtenRecords payloads) cipher _
      (StreamState.run decrypt decode events) :=
    follows_foldl hcut hdecrypt hdecode hfew events (follows_new hcut) horderly
  refine ⟨hfollows.running, hfollows.delivered_eq fun seq hseq => ?_⟩
  obtain ⟨payload, hmem⟩ := hall seq hseq
  exact mem_arrived_after hmem _

section Examples

/-- As many payloads of one byte as wanted. -/
def zeros (count : ℕ) : List Bytes := List.replicate count [0]

def decryptInTurn (cipher : ℕ → Bytes) (records : List Bytes) (turn : ℕ) (ciphertext : Bytes) :
    Option Bytes :=
  if ciphertext = cipher turn then records[turn]? else none

theorem decryptInTurn_spec (cipher : ℕ → Bytes) (records : List Bytes) :
    DecryptsInOrder (decryptInTurn cipher records) cipher records := by
  intro turn ciphertext plaintext
  rw [decryptInTurn]
  split_ifs with h
  · exact ⟨fun hrecord => ⟨hrecord, h⟩, fun hboth => hboth.1⟩
  · exact iff_of_false nofun fun hboth => h hboth.2

theorem short_zeros (count : ℕ) : ∀ payload ∈ zeros count, Short payload := by
  intro payload hpayload
  obtain rfl := eq_of_mem_replicate hpayload
  exact ⟨⟨by decide, by decide⟩, by decide⟩

theorem cut_zeros (count : ℕ) : Cut (zeros count) ((zeros count).map framed) := by
  rw [← writtenRecords_of_short (short_zeros count)]
  exact .writtenRecords fun payload hpayload => (short_zeros count payload hpayload).1

/-- A ciphertext of its own for every record. -/
def numbered (seq : ℕ) : Bytes := List.replicate (seq + 1) 0

theorem next_zeros_refused {decode : Bytes → Option ι} {sent start : ℕ} (hsent : sent < 2 ^ 32 - 1)
    (hstart : start < sent) {waiting : ℕ} {state : StreamState ι}
    (h : Follows (zeros sent) ((zeros sent).map framed) numbered ⟨Finset.range start, waiting⟩ state)
    {stream : NoiseVirtualStream ι} (hstream : stream = { state.stream with closed := stream.closed })
    (hrefuses : Refuses decode stream) :
    (StreamState.next (decryptInTurn numbered ((zeros sent).map framed)) decode ⟨stream, none⟩
      (.data start (numbered start))).error ≠ none := by
  have hlength : (zeros sent).length = sent := length_replicate
  rw [hstream] at hrefuses ⊢
  exact next_refused (cut_zeros sent) (decryptInTurn_spec numbered _) (by omega) (by omega) rfl
    h.inStep h.window h.holds (h.next.trans (expected_range start))
    (h.received.trans (expected_range start)) hrefuses

/-- All records arrive, in order, each once, and the stream fails: the handler reads none of 129
payloads, it has closed its queue, or it cannot decode the payload. -/
theorem delivery_refused :
    (StreamState.run (decryptInTurn numbered (writtenRecords (zeros 129))) some
      (inOrder numbered 0 129)).error ≠ none ∧
    (StreamState.run (decryptInTurn numbered (writtenRecords (zeros 1))) some
      (.close :: inOrder numbered 0 1)).error ≠ none ∧
    (StreamState.run (decryptInTurn numbered (writtenRecords (zeros 1)))
      (fun _ => (none : Option Unit)) (inOrder numbered 0 1)).error ≠ none := by
  rw [writtenRecords_of_short (short_zeros 129), writtenRecords_of_short (short_zeros 1)]
  refine ⟨?_, ?_, ?_⟩
  · have hlength : (zeros 129).length = 129 := length_replicate
    obtain ⟨horderly, hafter⟩ := @orderly_inOrder (zeros 129) numbered 0 0 128 (by omega) (by decide)
    have hfull : Follows _ _ _ _ (StreamState.run _ some (inOrder numbered 0 128)) :=
      follows_foldl (cut_zeros 129) (decryptInTurn_spec numbered _) (fun _ _ => rfl)
        (by rw [length_map]; omega) _ (follows_new (cut_zeros 129)) horderly
    rw [Finset.range_zero] at hafter
    rw [hafter, Nat.zero_add] at hfull
    have hsplit : inOrder numbered 0 129 =
        inOrder numbered 0 128 ++ [.data 128 (numbered 128)] := by
      rfl
    rw [hsplit, run_append_singleton]
    have hrunning := hfull.running
    have hwaiting := hfull.waiting
    generalize StreamState.run _ _ _ = state at hfull hrunning hwaiting ⊢
    obtain ⟨stream, error⟩ := state
    subst hrunning
    exact next_zeros_refused (by omega) (by omega) hfull rfl (.inr (.inl hwaiting.ge))
  · exact next_zeros_refused (by omega) (by omega) (follows_new (cut_zeros 1)) rfl (.inl rfl)
  · exact next_zeros_refused (by omega) (by omega) (follows_new (cut_zeros 1)) rfl
      (.inr (.inr fun _ => rfl))

/-- Three payloads are sent; the records of the first two are swapped, and one comes twice. -/
theorem swapped_payloads_delivered :
    let payloads : List Bytes := [[0], [1], [2]]
    let decrypt := decryptInTurn numbered (writtenRecords payloads)
    let events := [1, 0, 0, 2].map fun seq => StreamEvent.data seq (numbered seq)
    (∀ payload ∈ payloads, Sendable payload) ∧ (writtenRecords payloads).length < 2 ^ 32 - 1 ∧
      DecryptsInOrder decrypt numbered (writtenRecords payloads) ∧
      (StreamState.run decrypt some events).error = none ∧
      (StreamState.run decrypt some events).stream.delivered = payloads := by
  intro payloads decrypt events
  have hshort : ∀ payload ∈ payloads, Short payload := by
    intro payload hpayload
    simp only [payloads, mem_cons, not_mem_nil, or_false] at hpayload
    rcases hpayload with rfl | rfl | rfl <;> exact ⟨⟨by decide, by decide⟩, by decide⟩
  have hsend : ∀ payload ∈ payloads, Sendable payload := fun payload hpayload =>
    (hshort payload hpayload).1
  have hrecords := writtenRecords_of_short hshort
  have hfew : (writtenRecords payloads).length < 2 ^ 32 - 1 := by
    rw [hrecords]
    decide
  have hdecrypt := decryptInTurn_spec numbered (writtenRecords payloads)
  refine ⟨hsend, hfew, hdecrypt, (delivers_sent_payloads hsend hfew hdecrypt some events).2.1
    (fun _ _ => rfl) ?_ ?_⟩
  · have hnone : expected ∅ = 0 := expected_eq (by simp) (by simp)
    have hfirst : expected {1} = 0 := expected_eq (by simp) (by simp)
    have hboth : expected {0, 1} = 2 := expected_eq (by decide) (by simp)
    have hall : expected {2, 0, 1} = 3 := expected_eq (by decide) (by simp)
    have hlength : payloads.length = 3 := rfl
    have hcomplete := completeAt_map_framed payloads
    rw [hrecords]
    simp [events, hlength, Orderly, Ledger.Admits, Ledger.next, completed, hcomplete,
      bufferedBytes, hnone, hfirst, hboth, hall, numbered, maxReorderDistance, maxPendingBytes,
      channelCapacity]
  · intro seq hseq
    rw [hrecords] at hseq
    refine ⟨numbered seq, mem_map.mpr ⟨seq, ?_, rfl⟩⟩
    simp only [payloads, length_map, length_cons, length_nil] at hseq
    simp only [mem_cons, not_mem_nil, or_false]
    omega

end Examples

end Codex.NoiseRelay
