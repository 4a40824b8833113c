import Codex.RemoteControl.ServerEnvelope

/-!
# The buffer of unacknowledged server envelopes

What the server sends is kept until the client acknowledges it, and is sent again after a
reconnection.  The buffer keeps a queue for each stream of a client and counts its
envelopes; an acknowledgement removes the envelopes of one stream up to its cursor.

The log of a run says what was inserted and what was acknowledged.  The buffer is
compared with `unacked`, which reads off the log which envelopes no later acknowledgement
covers.

`outboundBuffer_exact` is the comparison along every run (`Matches`, step by step over `Holds`).
The numbers of a stream are unsigned and stop growing at the last one: `held_not_ordered`.
-/

namespace Codex.RemoteControl

open Text List ServerEnvelope

/-- `u64::MAX`, which is also `usize::MAX`. -/
def u64Max : ℕ := 2 ^ 64 - 1

def channelCapacity : ℕ := 128

variable {Value : Type}

/-! ## The buffer -/

structure BoundedOutboundBuffer (Value : Type) where
  bufferByStream : AList fun _ : ClientId × StreamId => List (ServerEnvelope Value)
  used : ℕ

namespace BoundedOutboundBuffer

def new : BoundedOutboundBuffer Value := ⟨∅, 0⟩

variable (buffer : BoundedOutboundBuffer Value)

/-- The queue of one stream. -/
def held (key : ClientId × StreamId) : List (ServerEnvelope Value) :=
  (buffer.bufferByStream.lookup key).getD []

def insert (envelope : ServerEnvelope Value) : BoundedOutboundBuffer Value :=
  ⟨buffer.bufferByStream.insert envelope.key (buffer.held envelope.key ++ [envelope]),
    buffer.used + 1⟩

/-- `retain` with the count of what is left; `none` if the count underflows. -/
def retain (ackedCursor : ℕ ×ₗ ℕ) : List (ServerEnvelope Value) → ℕ →
    Option (List (ServerEnvelope Value) × ℕ)
  | [], used => some ([], used)
  | envelope :: rest, used =>
    if envelope.position ≤ ackedCursor then
      if used = 0 then none else retain ackedCursor rest (used - 1)
    else (retain ackedCursor rest used).map fun result => (envelope :: result.1, result.2)

/-- The cursor of an acknowledgement: without a segment it covers the whole message. -/
def ackedCursor (ackedSeqId : ℕ) (ackedSegmentId : Option ℕ) : ℕ ×ₗ ℕ :=
  toLex (ackedSeqId, ackedSegmentId.getD u64Max)

/-- The buffer with another queue for a stream; an empty queue is dropped. -/
def withQueue (key : ClientId × StreamId) (kept : List (ServerEnvelope Value)) (used : ℕ) :
    BoundedOutboundBuffer Value :=
  ⟨if kept.isEmpty then buffer.bufferByStream.erase key
    else buffer.bufferByStream.insert key kept, used⟩

def ack (key : ClientId × StreamId) (cursor : ℕ ×ₗ ℕ) : Option (BoundedOutboundBuffer Value) :=
  match buffer.bufferByStream.lookup key with
  | none => some buffer
  | some held => do
      let (kept, used) ← retain cursor held buffer.used
      return buffer.withQueue key kept used

/-- All envelopes, with the streams in the order of an iteration over the map. -/
def serverEnvelopes
    (iterate : List (Sigma fun _ : ClientId × StreamId => List (ServerEnvelope Value)) →
      List (Sigma fun _ : ClientId × StreamId => List (ServerEnvelope Value)))
    (buffer : BoundedOutboundBuffer Value) : List (ServerEnvelope Value) :=
  (iterate buffer.bufferByStream.entries).flatMap Sigma.snd

end BoundedOutboundBuffer

/-! ## The writer -/

/-- The part of `WebsocketState` that the writer and the acknowledgements use. -/
structure Outbound (Value : Type) where
  outboundBuffer : BoundedOutboundBuffer Value
  nextSeqIdByStream : AList fun _ : ClientId × StreamId => ℕ

def Outbound.new : Outbound Value := ⟨.new, ∅⟩

/-- An order in which the map of the buffer is iterated. -/
structure Iteration (Value : Type) where
  iterate : List (Sigma fun _ : ClientId × StreamId => List (ServerEnvelope Value)) →
    List (Sigma fun _ : ClientId × StreamId => List (ServerEnvelope Value))
  perm : ∀ entries, (iterate entries).Perm entries

inductive OutboundInput (Value : Type) where
  /-- The writer takes an envelope from its channel. -/
  | receive (clientId : ClientId) (streamId : StreamId) (event : ServerEvent Value)
  | ack (clientId : ClientId) (streamId : StreamId) (seqId : ℕ) (segmentId : Option ℕ)
  /-- A new writer starts on a new connection. -/
  | reconnect (iteration : Iteration Value)

inductive OutboundLog (Value : Type) where
  /-- The next number of the stream was given to an envelope. -/
  | numbered (key : ClientId × StreamId)
  | inserted (envelope : ServerEnvelope Value)
  | acked (key : ClientId × StreamId) (cursor : ℕ ×ₗ ℕ)
  | resent (envelopes : List (ServerEnvelope Value))

variable [ServerCodec Value]

/-- The envelope can be written to the websocket. -/
def serializes (envelope : ServerEnvelope Value) : Bool := (ServerCodec.serialize envelope).isOk

namespace Outbound

/-- The next sequence number of a stream. -/
def nextSeqId (state : Outbound Value) (key : ClientId × StreamId) : ℕ :=
  (state.nextSeqIdByStream.lookup key).getD 1

/-- An envelope gets its number, is split, and its parts are kept before they are sent. -/
def receive (state : Outbound Value) (clientId : ClientId) (streamId : StreamId)
    (event : ServerEvent Value) : Outbound Value × List (OutboundLog Value) :=
  let key := (clientId, streamId)
  let seqId := state.nextSeqId key
  match splitServerEnvelopeForTransport ⟨event, clientId, streamId, seqId⟩ with
  | .error _ =>
    ({ state with nextSeqIdByStream := state.nextSeqIdByStream.insert key seqId }, [])
  | .ok parts =>
    let kept := parts.filter serializes
    -- `saturating_add`
    (⟨kept.foldl BoundedOutboundBuffer.insert state.outboundBuffer,
      state.nextSeqIdByStream.insert key (min (seqId + 1) u64Max)⟩,
      .numbered key :: kept.map .inserted)

/-- What a new writer sends first. -/
def resend (state : Outbound Value) (iteration : Iteration Value) : List (ServerEnvelope Value) :=
  (state.outboundBuffer.serverEnvelopes iteration.iterate).filter serializes

end Outbound

open BoundedOutboundBuffer

/-- The writer and the acknowledgements; a full buffer lets envelopes wait in the channel.  An
underflow of the count ends the run. -/
def outboundStep : Option (Outbound Value) → OutboundInput Value →
    Option (Outbound Value) × List (OutboundLog Value)
  | none, _ => (none, [])
  | some state, .receive clientId streamId event =>
    if state.outboundBuffer.used < channelCapacity then
      let (state, log) := state.receive clientId streamId event
      (some state, log)
    else (some state, [])
  | some state, .ack clientId streamId seqId segmentId =>
    let cursor := ackedCursor seqId segmentId
    ((state.outboundBuffer.ack (clientId, streamId) cursor).map fun buffer =>
      { state with outboundBuffer := buffer }, [.acked (clientId, streamId) cursor])
  | some state, .reconnect iteration => (some state, [.resent (state.resend iteration)])

/-! ## What is not acknowledged -/

/-- The entry acknowledges the envelope. -/
def OutboundLog.covers (envelope : ServerEnvelope Value) : OutboundLog Value → Bool
  | acked key cursor => envelope.key = key && envelope.position ≤ cursor
  | _ => false

open OutboundLog

/-- The envelopes of the log that no later entry acknowledges. -/
def unacked : List (OutboundLog Value) → List (ServerEnvelope Value)
  | [] => []
  | .inserted envelope :: rest =>
    if rest.any (OutboundLog.covers envelope) then unacked rest else envelope :: unacked rest
  | _ :: rest => unacked rest

/-- How many numbers of the stream have been given out. -/
def numberedCount (key : ClientId × StreamId) (log : List (OutboundLog Value)) : ℕ :=
  log.countP fun
    | .numbered key' => key' = key
    | _ => false

section Unacked

omit [ServerCodec Value]

variable (log : List (OutboundLog Value)) {entry : OutboundLog Value}
  {envelope : ServerEnvelope Value}

/-- An entry that inserts nothing leaves what it does not acknowledge. -/
theorem unacked_concat (hentry : ∀ envelope, entry ≠ .inserted envelope) :
    unacked (log ++ [entry]) = (unacked log).filter fun envelope => !entry.covers envelope := by
  induction log with
  | nil =>
    cases entry with
    | inserted envelope => exact absurd rfl (hentry envelope)
    | numbered | acked | resent => rfl
  | cons first rest ih =>
    cases first with
    | inserted envelope =>
      simp only [cons_append, unacked, ih]
      by_cases hrest : rest.any (covers envelope)
      · simp [hrest]
      · by_cases hcovers : entry.covers envelope
        all_goals simp [hrest, hcovers]
    | numbered | acked | resent => exact ih

theorem unacked_concat_of_not_covers (hentry : ∀ envelope, entry ≠ .inserted envelope)
    (hcovers : ∀ envelope, entry.covers envelope = false) :
    unacked (log ++ [entry]) = unacked log := by
  rw [unacked_concat log hentry, filter_eq_self]
  intro envelope _
  rw [hcovers envelope, Bool.not_false]

theorem unacked_concat_inserted :
    unacked (log ++ [.inserted envelope]) = unacked log ++ [envelope] := by
  induction log with
  | nil => rfl
  | cons first rest ih =>
    cases first with
    | inserted other =>
      simp only [cons_append, unacked, any_append, any_cons, any_nil,
        covers, Bool.or_false, ih]
      split_ifs <;> rfl
    | numbered | acked | resent => exact ih

theorem unacked_append_inserted (parts : List (ServerEnvelope Value)) :
    unacked (log ++ parts.map .inserted) = unacked log ++ parts := by
  induction parts generalizing log with
  | nil => simp
  | cons part rest ih =>
    rw [map_cons, append_cons, ih, unacked_concat_inserted, List.append_assoc, singleton_append]

end Unacked

/-! ## The buffer and the log -/

namespace BoundedOutboundBuffer

omit [ServerCodec Value]

variable {buffer : BoundedOutboundBuffer Value} {items : List (ServerEnvelope Value)}

/-- The buffer holds the items, each in the queue of its stream, and has counted them. -/
structure Holds (buffer : BoundedOutboundBuffer Value) (items : List (ServerEnvelope Value)) :
    Prop where
  sorts : Assoc.Sorts ServerEnvelope.key buffer.bufferByStream.entries items
  used_eq : buffer.used = items.length

theorem Holds.held_eq (h : buffer.Holds items) (key : ClientId × StreamId) :
    buffer.held key = items.filter fun envelope => envelope.key = key := h.sorts key

theorem held_insert_self (envelope : ServerEnvelope Value) :
    (buffer.insert envelope).held envelope.key = buffer.held envelope.key ++ [envelope] := by
  unfold held
  rw [insert, AList.lookup_insert]
  rfl

theorem Holds.insert (h : buffer.Holds items) (envelope : ServerEnvelope Value) :
    (buffer.insert envelope).Holds (items ++ [envelope]) := by
  refine ⟨fun key => ?_, ?_⟩
  · change (buffer.insert envelope).held key = _
    rw [filter_append, ← h.held_eq]
    by_cases hkey : key = envelope.key
    · subst hkey
      rw [held_insert_self]
      simp
    · rw [held, BoundedOutboundBuffer.insert, AList.lookup_insert_ne hkey, ← held]
      simp [Ne.symm hkey]
  · simp [BoundedOutboundBuffer.insert, h.used_eq]

theorem Holds.foldl_insert (h : buffer.Holds items) (parts : List (ServerEnvelope Value)) :
    (parts.foldl BoundedOutboundBuffer.insert buffer).Holds (items ++ parts) := by
  induction parts generalizing buffer items with
  | nil => simpa using h
  | cons part rest ih =>
    rw [append_cons]
    exact ih (h.insert part)

/-- The count does not underflow as long as it covers what is removed. -/
theorem retain_eq {cursor : ℕ ×ₗ ℕ} {held : List (ServerEnvelope Value)} {used : ℕ}
    (hused : (held.filter fun envelope => envelope.position ≤ cursor).length ≤ used) :
    retain cursor held used = some (held.filter fun envelope => ¬ envelope.position ≤ cursor,
      used - (held.filter fun envelope => envelope.position ≤ cursor).length) := by
  induction held generalizing used with
  | nil => rfl
  | cons envelope rest ih =>
    unfold retain
    by_cases hacked : envelope.position ≤ cursor
    · simp only [filter_cons, hacked, decide_true, if_true, length_cons] at hused ⊢
      rw [if_neg (by omega), ih (by omega), Nat.sub_sub, Nat.add_comm 1]
      simp
    · simp only [filter_cons, hacked, decide_false, Bool.false_eq_true, if_false] at hused ⊢
      rw [ih hused]
      simp

theorem held_withQueue_self (key : ClientId × StreamId) (kept : List (ServerEnvelope Value))
    (used : ℕ) : (buffer.withQueue key kept used).held key = kept := by
  cases kept with
  | nil =>
    unfold held withQueue
    rw [if_pos isEmpty_nil, AList.lookup_erase, Option.getD_none]
  | cons envelope rest =>
    unfold held withQueue
    rw [if_neg (by simp), AList.lookup_insert, Option.getD_some]

theorem held_withQueue_ne {key other : ClientId × StreamId} (hother : other ≠ key)
    (kept : List (ServerEnvelope Value)) (used : ℕ) :
    (buffer.withQueue key kept used).held other = buffer.held other := by
  unfold held withQueue
  split_ifs with hempty
  · rw [AList.lookup_erase_ne hother]
  · rw [AList.lookup_insert_ne hother]

/-- An acknowledgement removes what it covers from the queue of its stream, and nothing else. -/
theorem Holds.ack (h : buffer.Holds items) (key : ClientId × StreamId) (cursor : ℕ ×ₗ ℕ) :
    ∃ buffer', buffer.ack key cursor = some buffer' ∧ buffer'.Holds (items.filter fun envelope =>
        !(acked key cursor).covers envelope) := by
  have hheld := h.held_eq key
  cases hlookup : buffer.bufferByStream.lookup key with
  | none =>
    have hnone : buffer.held key = [] := by rw [held, hlookup, Option.getD_none]
    rw [hnone, eq_comm, filter_eq_nil_iff] at hheld
    have hall : items.filter (fun envelope =>
        !(acked key cursor).covers envelope) = items := by
      rw [filter_eq_self]
      intro envelope henvelope
      have hother : ¬ envelope.key = key := by simpa using hheld envelope henvelope
      simp [covers, hother]
    refine ⟨buffer, by simp [BoundedOutboundBuffer.ack, hlookup], ?_⟩
    rw [hall]
    exact h
  | some queue =>
    have hqueue : buffer.held key = queue := by rw [held, hlookup, Option.getD_some]
    rw [hqueue] at hheld
    -- what is removed from the queue is what the entry covers
    have hacked : (queue.filter fun envelope => envelope.position ≤ cursor) =
        items.filter (acked key cursor).covers := by
      rw [hheld, filter_filter]
      apply filter_congr
      intro envelope _
      exact Bool.and_comm _ _
    have hlength := length_eq_length_filter_add (acked key cursor).covers (l := items)
    have hused : (queue.filter fun envelope => envelope.position ≤ cursor).length ≤
        buffer.used := by
      rw [hacked, h.used_eq]
      omega
    refine ⟨buffer.withQueue key (queue.filter fun envelope => ¬ envelope.position ≤ cursor)
      (buffer.used - (queue.filter fun envelope => envelope.position ≤ cursor).length), ?_, ?_, ?_⟩
    · simp only [BoundedOutboundBuffer.ack, hlookup, retain_eq hused]
      rfl
    · intro other
      change (buffer.withQueue key _ _).held other = _
      by_cases hother : other = key
      · subst hother
        rw [held_withQueue_self, hheld, filter_filter, filter_filter]
        apply filter_congr
        intro envelope _
        by_cases hkey : envelope.key = other
        · simp only [covers, hkey, decide_true, Bool.true_and, Bool.and_true,
            decide_not]
        · simp [hkey]
      · rw [held_withQueue_ne hother, h.held_eq, filter_filter]
        apply filter_congr
        intro envelope _
        by_cases hkey : envelope.key = other
        · simp [covers, hkey, hother]
        · simp [hkey]
    · change buffer.used - _ = _
      rw [hacked, h.used_eq]
      omega

end BoundedOutboundBuffer

/-! ## Runs -/

namespace Outbound

variable {state : Outbound Value} {log : List (OutboundLog Value)} {key : ClientId × StreamId}

/-- What the log says about the state. -/
structure Matches (state : Outbound Value) (log : List (OutboundLog Value)) : Prop where
  holds : state.outboundBuffer.Holds (unacked log)
  serializable : ∀ envelope ∈ unacked log, serializes envelope = true
  nextSeqId_eq : ∀ key, state.nextSeqId key = min (numberedCount key log + 1) u64Max
  seqId_le : ∀ envelope ∈ unacked log, envelope.seqId ≤ numberedCount envelope.key log
  ordered : ∀ key, numberedCount key log ≤ u64Max →
    ((state.outboundBuffer.held key).map ServerEnvelope.position).Pairwise (· < ·)

theorem matches_new : (new : Outbound Value).Matches [] := by
  refine ⟨⟨fun _ => rfl, rfl⟩, by simp [unacked], ?_, by simp [unacked], ?_⟩
  · intro key
    rfl
  · intro key _
    exact List.Pairwise.nil

/-- Envelopes that keep their order among those that are held. -/
theorem Matches.of_filter {state' : Outbound Value} {log' : List (OutboundLog Value)}
    (h : state.Matches log) (keep : ServerEnvelope Value → Bool)
    (hholds : state'.outboundBuffer.Holds (unacked log'))
    (hunacked : unacked log' = (unacked log).filter keep)
    (hnext : ∀ key, state'.nextSeqId key = state.nextSeqId key)
    (hcount : ∀ key, numberedCount key log' = numberedCount key log) : state'.Matches log' := by
  refine ⟨hholds, ?_, ?_, ?_, ?_⟩
  · intro envelope henvelope
    rw [hunacked] at henvelope
    exact h.serializable envelope (mem_of_mem_filter henvelope)
  · intro key
    rw [hnext, hcount, h.nextSeqId_eq]
  · intro envelope henvelope
    rw [hunacked] at henvelope
    rw [hcount]
    exact h.seqId_le envelope (mem_of_mem_filter henvelope)
  · intro key hbound
    rw [hcount] at hbound
    refine (h.ordered key hbound).sublist (List.Sublist.map _ ?_)
    rw [hholds.held_eq, h.holds.held_eq, hunacked]
    exact filter_sublist.filter _

omit [ServerCodec Value] in
theorem nextSeqId_insert_self (buffer : BoundedOutboundBuffer Value) (seqId : ℕ) :
    nextSeqId ⟨buffer, state.nextSeqIdByStream.insert key seqId⟩ key = seqId := by
  unfold nextSeqId
  rw [AList.lookup_insert, Option.getD_some]

omit [ServerCodec Value] in
theorem nextSeqId_insert_ne {other : ClientId × StreamId} (hother : other ≠ key)
    (buffer : BoundedOutboundBuffer Value) (seqId : ℕ) :
    nextSeqId ⟨buffer, state.nextSeqIdByStream.insert key seqId⟩ other = state.nextSeqId other := by
  unfold nextSeqId
  rw [AList.lookup_insert_ne hother]

/-- The parts of an envelope with the next number of its stream come after what is held. -/
theorem Matches.numbered {envelope : ServerEnvelope Value} {kept : List (ServerEnvelope Value)}
    (h : state.Matches log) (hseq : envelope.seqId = state.nextSeqId envelope.key)
    (hparts : PartsOf envelope kept) (hkept : ∀ part ∈ kept, serializes part = true) :
    Matches ⟨kept.foldl BoundedOutboundBuffer.insert state.outboundBuffer,
      state.nextSeqIdByStream.insert envelope.key (min (envelope.seqId + 1) u64Max)⟩
      (log ++ .numbered envelope.key :: kept.map .inserted) := by
  have hnext := h.nextSeqId_eq envelope.key
  have hself : numberedCount envelope.key (log ++ .numbered envelope.key :: kept.map .inserted) =
      numberedCount envelope.key log + 1 := by
    simp [numberedCount]
  have hne : ∀ key, key ≠ envelope.key →
      numberedCount key (log ++ .numbered envelope.key :: kept.map .inserted) =
        numberedCount key log := by
    intro key hkey
    simp [numberedCount, Ne.symm hkey]
  have hunacked : unacked (log ++ .numbered envelope.key :: kept.map .inserted) =
      unacked log ++ kept := by
    rw [append_cons, unacked_append_inserted,
      unacked_concat_of_not_covers log (by simp) (fun _ => rfl)]
  have hholds := h.holds.foldl_insert kept
  refine ⟨by rwa [hunacked], ?_, ?_, ?_, ?_⟩
  · intro other hother
    rw [hunacked, mem_append] at hother
    rcases hother with hold | hnew
    · exact h.serializable other hold
    · exact hkept other hnew
  · intro key
    by_cases hkey : key = envelope.key
    · rw [hkey, nextSeqId_insert_self]
      omega
    · rw [nextSeqId_insert_ne hkey, hne key hkey, h.nextSeqId_eq]
  · intro other hother
    rw [hunacked, mem_append] at hother
    rcases hother with hold | hnew
    · have hle := h.seqId_le other hold
      by_cases hkey : other.key = envelope.key
      · rw [hkey] at hle ⊢
        omega
      · rwa [hne other.key hkey]
    · rw [hparts.key_eq other hnew, hparts.seqId_eq other hnew, hself]
      omega
  · intro key hbound
    rw [hholds.held_eq, filter_append, ← h.holds.held_eq]
    by_cases hkey : key = envelope.key
    · subst hkey
      have hall : (kept.filter fun part => part.key = envelope.key) = kept := by
        rw [filter_eq_self]
        intro part hpart
        simpa using hparts.key_eq part hpart
      rw [hall, map_append, pairwise_append]
      refine ⟨h.ordered _ (by omega), hparts.ordered, ?_⟩
      intro before hbefore after hafter
      obtain ⟨old, hold, rfl⟩ := mem_map.mp hbefore
      obtain ⟨part, hpart, rfl⟩ := mem_map.mp hafter
      rw [h.holds.held_eq] at hold
      obtain ⟨hold, holdKey⟩ := mem_filter.mp hold
      have hle := h.seqId_le old hold
      rw [of_decide_eq_true holdKey] at hle
      -- below the bound the next number has not been given out
      have hlt : old.seqId < part.seqId := by
        rw [hparts.seqId_eq part hpart]
        omega
      exact Prod.Lex.toLex_lt_toLex.mpr (Or.inl hlt)
    · have hnone : (kept.filter fun part => part.key = key) = [] := by
        rw [filter_eq_nil_iff]
        intro part hpart
        rw [hparts.key_eq part hpart]
        simpa using Ne.symm hkey
      rw [hne key hkey] at hbound
      rw [hnone, append_nil]
      exact h.ordered key hbound

theorem Matches.receive (h : state.Matches log) (clientId : ClientId) (streamId : StreamId)
    (event : ServerEvent Value) :
    (state.receive clientId streamId event).1.Matches
      (log ++ (state.receive clientId streamId event).2) := by
  unfold Outbound.receive
  dsimp only
  split
  · rw [append_nil]
    -- the entry that looking up the number may add says what was there before
    refine h.of_filter (fun _ => true) h.holds (by simp) ?_ (fun _ => rfl)
    intro key
    by_cases hkey : key = (clientId, streamId)
    · rw [hkey, nextSeqId_insert_self]
    · rw [nextSeqId_insert_ne hkey]
  · rename_i parts hsplit
    have hparts := (partsOf_split hsplit).filter serializes
    exact h.numbered rfl hparts fun part hpart => (mem_filter.mp hpart).2

/-- The count does not underflow, and the state stays as the log says. -/
theorem Matches.step (h : state.Matches log) (input : OutboundInput Value) :
    ∃ state', (outboundStep (some state) input).1 = some state' ∧
      state'.Matches (log ++ (outboundStep (some state) input).2) := by
  cases input with
  | receive clientId streamId event =>
    by_cases hcapacity : state.outboundBuffer.used < channelCapacity
    · refine ⟨(state.receive clientId streamId event).1, ?_, ?_⟩
      · simp only [outboundStep, if_pos hcapacity]
      · simp only [outboundStep, if_pos hcapacity]
        exact h.receive clientId streamId event
    · refine ⟨state, ?_, ?_⟩
      · simp only [outboundStep, if_neg hcapacity]
      · simpa only [outboundStep, if_neg hcapacity, append_nil] using h
  | ack clientId streamId seqId segmentId =>
    obtain ⟨buffer, hack, hholds⟩ := h.holds.ack (clientId, streamId) (ackedCursor seqId segmentId)
    refine ⟨{ state with outboundBuffer := buffer }, by simp [outboundStep, hack], ?_⟩
    have hunacked := unacked_concat log (show ∀ envelope, acked (clientId, streamId)
      (ackedCursor seqId segmentId) ≠ .inserted envelope by simp)
    refine h.of_filter _ ?_ hunacked (fun _ => rfl) ?_
    · simp only [outboundStep, hunacked]
      exact hholds
    · intro key
      simp only [numberedCount, countP_append]
      rfl
  | reconnect iteration =>
    refine ⟨state, rfl, ?_⟩
    have hunacked := unacked_concat_of_not_covers log
      (show ∀ envelope, resent (state.resend iteration) ≠ .inserted envelope by simp)
      (fun _ => rfl)
    refine h.of_filter (fun _ => true) ?_ ?_ (fun _ => rfl) ?_
    · simp only [outboundStep, hunacked]
      exact h.holds
    · simp only [outboundStep, hunacked, filter_true]
    · intro key
      simp only [numberedCount, countP_append]
      rfl

end Outbound

/-- Every run goes on, and its log says what the buffer holds. -/
theorem exists_matches (inputs : List (OutboundInput Value)) :
    ∃ state, Run.after outboundStep (some Outbound.new) inputs = some state ∧
      state.Matches (Run.outputs outboundStep (some Outbound.new) inputs) := by
  refine Run.invariant outboundStep (some Outbound.new)
    (P := fun _ reached log => ∃ state : Outbound Value, reached = some state ∧ state.Matches log)
    ⟨Outbound.new, rfl, Outbound.matches_new⟩ ?_ inputs
  rintro past reached log input ⟨state, rfl, h⟩
  exact h.step input

/-! ## What holds of every run -/

/-- The buffer counts what it holds and holds what is not acknowledged.  Each stream is in
order until its numbers are used up; an acknowledgement leaves the other streams; a new writer
sends everything once. -/
theorem outboundBuffer_exact (inputs : List (OutboundInput Value)) :
    ∃ state : Outbound Value, Run.after outboundStep (some Outbound.new) inputs = some state ∧
      let log := Run.outputs outboundStep (some Outbound.new) inputs
      let buffer := state.outboundBuffer
      buffer.used = (buffer.bufferByStream.entries.flatMap Sigma.snd).length ∧
      (∀ key, buffer.held key = (unacked log).filter fun envelope => envelope.key = key) ∧
      (∀ key, numberedCount key log ≤ u64Max →
        ((buffer.held key).map position).Pairwise (· < ·)) ∧
      (∀ key cursor, ∃ buffer', buffer.ack key cursor = some buffer' ∧
        ∀ other, other ≠ key → buffer'.held other = buffer.held other) ∧
      ∀ iteration, (state.resend iteration).Perm (unacked log) ∧
        ∀ key, ((state.resend iteration).filter fun envelope => envelope.key = key) =
          buffer.held key := by
  obtain ⟨state, hafter, h⟩ := exists_matches inputs
  refine ⟨state, hafter, ?_, h.holds.held_eq, h.ordered, ?_, ?_⟩
  · have hperm := h.holds.sorts.flatMap_perm state.outboundBuffer.bufferByStream.nodupKeys
    rw [hperm.length_eq, h.holds.used_eq]
  · intro key cursor
    obtain ⟨buffer, hack, -⟩ := h.holds.ack key cursor
    refine ⟨buffer, hack, fun other hother => ?_⟩
    unfold BoundedOutboundBuffer.ack at hack
    split at hack
    · cases hack
      rfl
    · obtain ⟨⟨kept, used⟩, -, hack⟩ := Option.bind_eq_some_iff.mp hack
      cases hack
      exact held_withQueue_ne hother kept used
  · intro iteration
    have hentries := iteration.perm state.outboundBuffer.bufferByStream.entries
    have hnodup := (perm_nodupKeys hentries).mpr state.outboundBuffer.bufferByStream.nodupKeys
    have hsorts := h.holds.sorts.of_perm state.outboundBuffer.bufferByStream.nodupKeys hentries
    have hperm := hsorts.flatMap_perm hnodup
    have hall : state.resend iteration = state.outboundBuffer.serverEnvelopes iteration.iterate := by
      unfold Outbound.resend
      rw [filter_eq_self]
      intro envelope henvelope
      exact h.serializable envelope (hperm.mem_iff.mp henvelope)
    rw [hall]
    refine ⟨hperm, fun key => ?_⟩
    rw [h.holds.held_eq]
    exact hsorts.filter_flatMap hnodup key

/-- A codec that writes every envelope as the empty text. -/
@[reducible] def blankCodec : ServerCodec Unit where
  serialize _ := .ok []
  serializeMessage _ := .ok []
  encode _ := []

theorem outboundBuffer_exact_two_pongs :
    let _ : ServerCodec Unit := blankCodec
    let client : ClientId := ⟨['c']⟩
    let stream : StreamId := ⟨['s']⟩
    let inputs : List (OutboundInput Unit) :=
      [.receive client stream (.pong .active), .receive client stream (.pong .active),
        .ack client stream 1 none, .receive client stream .ack]
    numberedCount (client, stream) (Run.outputs outboundStep (some Outbound.new) inputs) ≤ u64Max ∧
    ∃ state : Outbound Unit, Run.after outboundStep (some Outbound.new) inputs = some state ∧
      ((state.outboundBuffer.held (client, stream)).map position).Pairwise (· < ·) ∧
      ∃ buffer, state.outboundBuffer.ack (client, ⟨['t']⟩) (toLex (1, 0)) = some buffer ∧
        buffer.held (client, stream) = state.outboundBuffer.held (client, stream) := by
  intro _ client stream inputs
  have hcount : numberedCount (client, stream)
      (Run.outputs outboundStep (some Outbound.new) inputs) ≤ u64Max := by decide
  obtain ⟨state, hafter, -, -, hordered, hack, -⟩ := outboundBuffer_exact inputs
  obtain ⟨buffer, hbuffer, hother⟩ := hack (client, ⟨['t']⟩) (toLex (1, 0))
  exact ⟨hcount, state, hafter, hordered _ hcount, buffer, hbuffer, hother _ (by decide)⟩

/-! ## When the numbers of a stream are used up -/

section Saturation

local instance : ServerCodec Unit := blankCodec

/-- The stream of the run below. -/
def pongKey : ClientId × StreamId := (⟨['c']⟩, ⟨['s']⟩)

def pongInput : OutboundInput Unit := .receive pongKey.1 pongKey.2 (.pong .active)

def ackInput : OutboundInput Unit := .ack pongKey.1 pongKey.2 u64Max none

def pongEnvelope (seqId : ℕ) : ServerEnvelope Unit := ⟨.pong .active, pongKey.1, pongKey.2, seqId⟩

theorem outboundStep_pongInput (state : Outbound Unit)
    (hcapacity : state.outboundBuffer.used < channelCapacity) :
    (outboundStep (some state) pongInput).1 =
      some ⟨state.outboundBuffer.insert (pongEnvelope (state.nextSeqId pongKey)),
        state.nextSeqIdByStream.insert pongKey (min (state.nextSeqId pongKey + 1) u64Max)⟩ := by
  simp only [pongInput, outboundStep, if_pos hcapacity]
  rfl

theorem outboundStep_ackInput {state : Outbound Unit} {seqId : ℕ} (hseq : seqId ≤ u64Max)
    (hbuffer : state.outboundBuffer = new.insert (pongEnvelope seqId)) :
    (outboundStep (some state) ackInput).1 = some ⟨.new, state.nextSeqIdByStream⟩ := by
  have hlookup : state.outboundBuffer.bufferByStream.lookup pongKey =
      some [pongEnvelope seqId] := by
    rw [hbuffer]
    exact AList.lookup_insert _
  have hcovered : (pongEnvelope seqId).position ≤ ackedCursor u64Max none := by
    rcases hseq.lt_or_eq with hlt | rfl
    · exact Prod.Lex.toLex_le_toLex.mpr (.inl hlt)
    · exact Prod.Lex.toLex_le_toLex.mpr (.inr ⟨rfl, Nat.zero_le _⟩)
  have hretain : retain (ackedCursor u64Max none)
      [pongEnvelope seqId] state.outboundBuffer.used = some ([], 0) := by
    rw [hbuffer, retain, if_pos hcovered]
    rfl
  have hempty : state.outboundBuffer.withQueue pongKey [] 0 = .new := by
    rw [hbuffer]
    rfl
  have hack : state.outboundBuffer.ack pongKey (ackedCursor u64Max none) = some .new := by
    simp only [BoundedOutboundBuffer.ack, hlookup, hretain]
    exact congrArg some hempty
  simp only [ackInput, outboundStep, hack, Option.map_some]

/-- Pongs that are acknowledged at once use up the numbers and leave the buffer empty. -/
theorem after_rounds (k : ℕ) :
    ∃ state, Run.after outboundStep (some Outbound.new)
        (List.replicate k [pongInput, ackInput]).flatten = some state ∧
      state.outboundBuffer = .new ∧ state.nextSeqId pongKey = min (k + 1) u64Max := by
  induction k with
  | zero => exact ⟨Outbound.new, rfl, rfl, rfl⟩
  | succ k ih =>
    obtain ⟨state, hafter, hbuffer, hnext⟩ := ih
    have hlist : (List.replicate (k + 1) [pongInput, ackInput]).flatten =
        (List.replicate k [pongInput, ackInput]).flatten ++ [pongInput] ++ [ackInput] := by
      rw [replicate_succ']
      simp
    have hseq : state.nextSeqId pongKey ≤ u64Max := by omega
    rw [hlist, Run.after_concat, Run.after_concat, hafter,
      outboundStep_pongInput state (by rw [hbuffer]; decide),
      outboundStep_ackInput hseq (by rw [hbuffer])]
    refine ⟨_, rfl, rfl, ?_⟩
    rw [Outbound.nextSeqId_insert_self]
    omega

/-- After that two envelopes get the same number. -/
theorem held_not_ordered :
    ∃ (inputs : List (OutboundInput Unit)) (state : Outbound Unit),
      Run.after outboundStep (some Outbound.new) inputs = some state ∧
      ¬ ((state.outboundBuffer.held pongKey).map ServerEnvelope.position).Pairwise (· < ·) := by
  obtain ⟨state, hafter, hbuffer, hnext⟩ := after_rounds u64Max
  have hmax : state.nextSeqId pongKey = u64Max := by omega
  have hsaturated : min (u64Max + 1) u64Max = u64Max := by omega
  refine ⟨(List.replicate u64Max [pongInput, ackInput]).flatten ++ [pongInput] ++ [pongInput],
    ⟨(new.insert (pongEnvelope u64Max)).insert (pongEnvelope u64Max),
      (state.nextSeqIdByStream.insert pongKey u64Max).insert pongKey u64Max⟩, ?_, ?_⟩
  · rw [Run.after_concat, Run.after_concat, hafter,
      outboundStep_pongInput state (by rw [hbuffer]; decide),
      outboundStep_pongInput _ (by rw [hbuffer]; exact (by decide : 0 + 1 < channelCapacity)),
      Outbound.nextSeqId_insert_self, hmax,
      hbuffer, hsaturated]
    rw [hsaturated]
  · have hheld : ((new.insert (pongEnvelope u64Max)).insert
        (pongEnvelope u64Max)).held pongKey = [pongEnvelope u64Max, pongEnvelope u64Max] :=
      held_insert_self (pongEnvelope u64Max)
    intro hordered
    rw [hheld, map_cons, pairwise_cons] at hordered
    exact lt_irrefl _ (hordered.1 _ (by simp))

end Saturation

end Codex.RemoteControl
