import Codex.RemoteControl.ServerEnvelope

/-!
# The connections of the clients

The tracker opens a connection to the app server when a client sends `initialize` on a
stream, forwards the messages of the stream over it and closes it.  It remembers the
sequence number of the last message it forwarded and drops messages that are not newer.

Every event it sends to the app server may fail, because the queue is closed or stays
full; the outcomes are part of the `Attempt`.  What happened is written to a log.
-/

namespace Codex.RemoteControl

open Text List

def remoteControlClientIdleTimeout : ℕ := 10 * 60

structure ClientState where
  connectionId : ℕ
  lastActivityAt : ℕ
  lastInboundSeqId : Option ℕ
  deriving DecidableEq, Repr

structure ClientTracker where
  clients : AList fun _ : ClientId × StreamId => ClientState
  legacyStreamIds : AList fun _ : ClientId => StreamId

/-- The time of a call, the names it may draw, and the outcomes of what it sends. -/
structure Attempt where
  now : ℕ
  newStreamId : StreamId
  newConnectionId : ℕ
  closedSent : Bool
  openedSent : Bool
  incomingSent : Bool
  deriving DecidableEq, Repr

inductive InboundLog (Value : Type) where
  | opened (key : ClientId × StreamId) (connectionId : ℕ)
  | forwarded (key : ClientId × StreamId) (seqId : Option ℕ) (connectionId : ℕ)
      (message : JsonRpcMessage Value)
  /-- A message was not forwarded because an event could not be sent. -/
  | failed (key : ClientId × StreamId) (seqId : Option ℕ) (message : JsonRpcMessage Value)
  | closed (key : ClientId × StreamId) (connectionId : ℕ)
  | pong (key : ClientId × StreamId) (status : PongStatus)
  | acked (key : ClientId × StreamId) (seqId : ℕ) (segmentId : Option ℕ)
  /-- The number of a message that came in chunks was recorded. -/
  | completed (key : ClientId × Option StreamId) (seqId : ℕ)
  deriving DecidableEq, Repr

variable {Value : Type}

/-- What a call returns, the tracker after it, and the log. -/
structure Handled (Value : Type) where
  ok : Bool
  tracker : ClientTracker
  log : List (InboundLog Value)

def ClientEvent.isInitialize : ClientEvent Value → Bool
  | clientMessage message => message.startsConnection
  | _ => false

def ClientState.isAlive (client : ClientState) (now : ℕ) : Bool :=
  now - client.lastActivityAt < remoteControlClientIdleTimeout

namespace ClientTracker

def new : ClientTracker := ⟨∅, ∅⟩

variable (attempt : Attempt) (tracker : ClientTracker) (clientKey : ClientId × StreamId)

def removeClient : ClientTracker :=
  if clientKey ∈ tracker.clients then
    ⟨tracker.clients.erase clientKey,
      if tracker.legacyStreamIds.lookup clientKey.1 = some clientKey.2 then
        tracker.legacyStreamIds.erase clientKey.1
      else tracker.legacyStreamIds⟩
  else tracker

/-- The client is removed before the event is sent. -/
def closeClient (sent : Bool) (tracker : ClientTracker) (clientKey : ClientId × StreamId) :
    Handled Value :=
  match tracker.clients.lookup clientKey with
  | none => ⟨true, tracker, []⟩
  | some client => ⟨sent, tracker.removeClient clientKey, [.closed clientKey client.connectionId]⟩

def recordInboundMessageDelivery (seqId : Option ℕ) : ClientTracker :=
  match seqId, tracker.clients.lookup clientKey with
  | some seqId, some client =>
    { tracker with
      clients := tracker.clients.insert clientKey { client with lastInboundSeqId := some seqId } }
  | _, _ => tracker

/-- The stream of an envelope; clients that do not name it have one stream at a time. -/
def resolveStreamId (envelope : ClientEnvelope Value) : StreamId × ClientTracker :=
  match envelope.streamId with
  | some streamId => (streamId, tracker)
  | none =>
    let legacy := tracker.legacyStreamIds.lookup envelope.clientId
    if envelope.event.isInitialize then
      (legacy.getD attempt.newStreamId,
        { tracker with legacyStreamIds := tracker.legacyStreamIds.erase envelope.clientId })
    else
      (legacy.getD (match envelope.event with
        | .ping => attempt.newStreamId
        | _ => ⟨[]⟩), tracker)

/-- The message is not newer than the last one that was forwarded. -/
def isReplay (seqId : Option ℕ) : Bool :=
  seqId.any fun seqId => (tracker.clients.lookup clientKey).any fun client =>
    client.lastInboundSeqId.any fun lastSeqId => seqId ≤ lastSeqId

/-- A message for an open connection. -/
def forward (client : ClientState)
    (seqId : Option ℕ) (message : JsonRpcMessage Value) : Handled Value :=
  let tracker := { tracker with
    clients := tracker.clients.insert clientKey { client with lastActivityAt := attempt.now } }
  if attempt.incomingSent then
    ⟨true, tracker.recordInboundMessageDelivery clientKey seqId,
      [.forwarded clientKey seqId client.connectionId message]⟩
  else ⟨false, tracker, [.failed clientKey seqId message]⟩

variable (isLegacyStreamId : Bool) (seqId : Option ℕ) (message : JsonRpcMessage Value)

/-- A new connection, with the message that opens it. -/
def openConnection : Handled Value :=
  let connectionId := attempt.newConnectionId
  if !attempt.openedSent then ⟨false, tracker, [.failed clientKey seqId message]⟩
  else
    let tracker : ClientTracker :=
      ⟨tracker.clients.insert clientKey ⟨connectionId, attempt.now, none⟩,
        if isLegacyStreamId then tracker.legacyStreamIds.insert clientKey.1 clientKey.2
        else tracker.legacyStreamIds⟩
    if attempt.incomingSent then
      ⟨true, if isLegacyStreamId then tracker
        else tracker.recordInboundMessageDelivery clientKey seqId,
        [.opened clientKey connectionId, .forwarded clientKey seqId connectionId message]⟩
    else
      ⟨false, tracker.removeClient clientKey,
        [.opened clientKey connectionId, .failed clientKey seqId message,
          .closed clientKey connectionId]⟩

/-- A replay is dropped; an `initialize` closes the connection there is and opens a new one. -/
def handleClientMessage : Handled Value :=
  let isInitialize := message.startsConnection
  if tracker.isReplay clientKey seqId && !isInitialize then ⟨true, tracker, []⟩
  else
    let closing : Handled Value :=
      if isInitialize && (tracker.clients.lookup clientKey).isSome then
        tracker.closeClient attempt.closedSent clientKey
      else ⟨true, tracker, []⟩
    let result : Handled Value :=
      if !closing.ok then ⟨false, closing.tracker, [.failed clientKey seqId message]⟩
      else
        match closing.tracker.clients.lookup clientKey with
        | some client => closing.tracker.forward attempt clientKey client seqId message
        | none =>
          if !isInitialize then ⟨true, closing.tracker, []⟩
          else closing.tracker.openConnection attempt clientKey isLegacyStreamId seqId message
    { result with log := closing.log ++ result.log }

/-- A ping keeps the connection alive; without one the answer says so. -/
def handlePing : Handled Value :=
  match tracker.clients.lookup clientKey with
  | some client =>
    ⟨true, { tracker with
      clients := tracker.clients.insert clientKey { client with lastActivityAt := attempt.now } },
      [.pong clientKey .active]⟩
  | none => ⟨true, tracker, [.pong clientKey .unknown]⟩

def handleMessage (envelope : ClientEnvelope Value) : Handled Value :=
  let (streamId, tracker) := tracker.resolveStreamId attempt envelope
  if streamId.text.isEmpty then ⟨true, tracker, []⟩
  else
    let clientKey := (envelope.clientId, streamId)
    match envelope.event with
    | .clientMessage message =>
      tracker.handleClientMessage attempt clientKey envelope.streamId.isNone envelope.seqId message
    | .clientMessageChunk _ _ _ _ | .ack _ => ⟨true, tracker, []⟩
    | .ping => tracker.handlePing attempt clientKey
    | .clientClosed => tracker.closeClient attempt.closedSent clientKey

/-- Closes clients one after the other, until an event cannot be sent. -/
def closeClients (sent : ClientId × StreamId → Bool) :
    List (ClientId × StreamId) → ClientTracker → Handled Value
  | [], tracker => ⟨true, tracker, []⟩
  | clientKey :: rest, tracker =>
    let closing : Handled Value := tracker.closeClient (sent clientKey) clientKey
    if closing.ok then
      let closed := closeClients sent rest closing.tracker
      { closed with log := closing.log ++ closed.log }
    else closing

/-- The clients that have been idle for too long, in the order of an iteration over the map. -/
def expiredClients (now : ℕ) (iterate : List (Sigma fun _ : ClientId × StreamId => ClientState) →
      List (Sigma fun _ : ClientId × StreamId => ClientState))
    (tracker : ClientTracker) : List (ClientId × StreamId) :=
  (iterate tracker.clients.entries).filterMap fun entry =>
    if entry.2.isAlive now then none else some entry.1

end ClientTracker

/-! ## What the log says about a stream -/

namespace InboundLog

variable (key : ClientId × StreamId) (log : List (InboundLog Value))

/-- Whether the connection of the stream is open. -/
def isOpen : Bool :=
  log.foldl (fun isOpen entry => match entry with
    | opened key' _ => key' = key || isOpen
    | closed key' _ => !decide (key' = key) && isOpen
    | _ => isOpen) false

/-- The sequence number of a message of the stream that was forwarded. -/
def forwardedSeqId : InboundLog Value → Option ℕ
  | forwarded key' seqId _ _ => if key' = key then seqId else none
  | _ => none

/-- The sequence numbers that were forwarded since the connection was opened. -/
def since : List ℕ :=
  log.foldl (fun seqIds entry => match entry with
    | opened key' _ => if key' = key then [] else seqIds
    | _ => seqIds ++ (entry.forwardedSeqId key).toList) []

variable {key log} {entry : InboundLog Value}

/-- An entry that neither opens nor closes a connection. -/
theorem isOpen_concat (hopened : ∀ key id, entry ≠ opened key id)
    (hclosed : ∀ key id, entry ≠ closed key id) : isOpen key (log ++ [entry]) = isOpen key log := by
  unfold isOpen
  rw [foldl_append]
  cases entry with
  | opened key id => exact absurd rfl (hopened key id)
  | closed key id => exact absurd rfl (hclosed key id)
  | _ => rfl

theorem isOpen_concat_opened (key' : ClientId × StreamId) (id : ℕ) :
    isOpen key (log ++ [opened key' id]) = (decide (key' = key) || isOpen key log) := by
  unfold isOpen
  rw [foldl_append]
  rfl

theorem isOpen_concat_closed (key' : ClientId × StreamId) (id : ℕ) :
    isOpen key (log ++ [closed key' id]) = (!decide (key' = key) && isOpen key log) := by
  unfold isOpen
  rw [foldl_append]
  rfl

theorem since_concat (hopened : ∀ id, entry ≠ opened key id) :
    since key (log ++ [entry]) = since key log ++ (entry.forwardedSeqId key).toList := by
  unfold since
  rw [foldl_append]
  cases entry with
  | opened key' id =>
    have hne : key' ≠ key := by
      rintro rfl
      exact hopened id rfl
    simp [hne, forwardedSeqId]
  | _ => rfl

theorem since_concat_opened (key : ClientId × StreamId) (id : ℕ) :
    since key (log ++ [opened key id]) = [] := by
  unfold since
  simp

/-- As long as the connection is not opened again, the numbers are those of what is added. -/
theorem since_append {more : List (InboundLog Value)} (hopened : ∀ id, opened key id ∉ more) :
    since key (log ++ more) = since key log ++ more.filterMap (forwardedSeqId key) := by
  induction more using List.reverseRecOn with
  | nil => simp
  | append_singleton more entry ih =>
    have hmore : ∀ id, opened key id ∉ more := by
      intro id hmem
      exact hopened id (mem_append_left _ hmem)
    have hentry : ∀ id, entry ≠ opened key id := by
      rintro id rfl
      exact hopened id (by simp)
    rw [← List.append_assoc, since_concat hentry, ih hmore]
    cases hseq : entry.forwardedSeqId key <;> simp [hseq]

end InboundLog

namespace ClientTracker

open InboundLog

variable {tracker tracker' : ClientTracker} {log : List (InboundLog Value)}
  {clientKey key : ClientId × StreamId} {client : ClientState}

theorem lookup_removeClient_self :
    (tracker.removeClient clientKey).clients.lookup clientKey = none := by
  unfold removeClient
  by_cases hmem : clientKey ∈ tracker.clients
  · rw [if_pos hmem]
    exact AList.lookup_erase _ _
  · rw [if_neg hmem]
    exact AList.lookup_eq_none.mpr hmem

theorem lookup_removeClient_ne (hkey : key ≠ clientKey) :
    (tracker.removeClient clientKey).clients.lookup key = tracker.clients.lookup key := by
  unfold removeClient
  by_cases hmem : clientKey ∈ tracker.clients
  · rw [if_pos hmem]
    exact AList.lookup_erase_ne hkey
  · rw [if_neg hmem]

theorem closeClient_of_lookup (hlookup : tracker.clients.lookup clientKey = some client)
    (sent : Bool) : (tracker.closeClient sent clientKey : Handled Value) =
      ⟨sent, tracker.removeClient clientKey, [.closed clientKey client.connectionId]⟩ := by
  simp only [closeClient, hlookup]

theorem closeClient_of_lookup_none (hlookup : tracker.clients.lookup clientKey = none)
    (sent : Bool) : (tracker.closeClient sent clientKey : Handled Value) = ⟨true, tracker, []⟩ := by
  simp only [closeClient, hlookup]

theorem lookup_closeClient_self (sent : Bool) :
    (tracker.closeClient sent clientKey : Handled Value).tracker.clients.lookup clientKey =
      none := by
  cases hlookup : tracker.clients.lookup clientKey with
  | none => rw [closeClient_of_lookup_none hlookup, hlookup]
  | some client =>
    rw [closeClient_of_lookup hlookup]
    exact lookup_removeClient_self

variable {seqId : Option ℕ}

/-- A message that opens no connection is forwarded over the open one, unless it is a replay. -/
theorem handleClientMessage_of_not_starts {attempt : Attempt} {isLegacyStreamId : Bool}
    {message : JsonRpcMessage Value} (h : message.startsConnection = false) :
    tracker.handleClientMessage attempt clientKey isLegacyStreamId seqId message =
      if tracker.isReplay clientKey seqId then ⟨true, tracker, []⟩
      else
        match tracker.clients.lookup clientKey with
        | some client => tracker.forward attempt clientKey client seqId message
        | none => ⟨true, tracker, []⟩ := by
  simp only [handleClientMessage, h, Bool.not_false, Bool.and_true, Bool.false_and, if_true,
    Bool.false_eq_true, if_false, Bool.not_true, nil_append]

/-- A message that opens a connection closes the one that is there. -/
theorem handleClientMessage_of_starts {attempt : Attempt} {isLegacyStreamId : Bool}
    {message : JsonRpcMessage Value} (h : message.startsConnection = true) :
    tracker.handleClientMessage attempt clientKey isLegacyStreamId seqId message =
      let closing : Handled Value := tracker.closeClient attempt.closedSent clientKey
      let result : Handled Value :=
        if !closing.ok then ⟨false, closing.tracker, [.failed clientKey seqId message]⟩
        else closing.tracker.openConnection attempt clientKey isLegacyStreamId seqId message
      { result with log := closing.log ++ result.log } := by
  have hclosing : (if true && (tracker.clients.lookup clientKey).isSome then
        tracker.closeClient attempt.closedSent clientKey
      else ⟨true, tracker, []⟩ : Handled Value) =
      tracker.closeClient attempt.closedSent clientKey := by
    cases hlookup : tracker.clients.lookup clientKey with
    | none => rw [closeClient_of_lookup_none hlookup, if_neg (by simp)]
    | some client => rw [if_pos (by simp)]
  unfold handleClientMessage
  rw [h]
  dsimp only
  rw [hclosing, lookup_closeClient_self]
  simp

/-- The tracker is as the log says, and no number was forwarded twice. -/
structure Delivery (tracker : ClientTracker) (log : List (InboundLog Value)) : Prop where
  isOpen_eq : ∀ key, (tracker.clients.lookup key).isSome = isOpen key log
  last_eq : ∀ key client, tracker.clients.lookup key = some client →
    client.lastInboundSeqId = (since key log).getLast?
  ordered : ∀ key past, past <+: log → (since key past).Pairwise (· < ·)

namespace Delivery

theorem nil : Delivery new ([] : List (InboundLog Value)) := by
  refine ⟨fun key => rfl, ?_, ?_⟩
  · intro key client hlookup
    cases hlookup
  · intro key past hpast
    rw [prefix_nil.mp hpast]
    exact List.Pairwise.nil

variable (h : Delivery tracker log)
include h

/-- One more entry in the log, which keeps the numbers of each stream in order. -/
theorem ordered_concat {entry : InboundLog Value}
    (hentry : ∀ key, (since key (log ++ [entry])).Pairwise (· < ·)) (key : ClientId × StreamId)
    (past : List (InboundLog Value)) (hpast : past <+: log ++ [entry]) :
    (since key past).Pairwise (· < ·) := by
  rcases prefix_concat_iff.mp hpast with rfl | hpast
  · exact hentry key
  · exact h.ordered key past hpast

/-- An entry that says nothing about connections and numbers. -/
theorem concat {entry : InboundLog Value} (hopened : ∀ key id, entry ≠ opened key id)
    (hclosed : ∀ key id, entry ≠ closed key id)
    (hforwarded : ∀ key, entry.forwardedSeqId key = none) : Delivery tracker (log ++ [entry]) := by
  have hsince : ∀ key, since key (log ++ [entry]) = since key log := by
    intro key
    rw [since_concat (hopened key), hforwarded key]
    simp
  refine ⟨?_, ?_, h.ordered_concat ?_⟩
  · intro key
    rw [isOpen_concat hopened hclosed]
    exact h.isOpen_eq key
  · intro key client hlookup
    rw [hsince]
    exact h.last_eq key client hlookup
  · intro key
    rw [hsince]
    exact h.ordered key log (prefix_refl log)

/-- Entries that say nothing about connections and numbers. -/
theorem append {more : List (InboundLog Value)}
    (hmore : ∀ entry ∈ more, ∀ key, (∀ id, entry ≠ opened key id) ∧ (∀ id, entry ≠ closed key id) ∧
      entry.forwardedSeqId key = none) : Delivery tracker (log ++ more) := by
  induction more generalizing log with
  | nil => rwa [append_nil]
  | cons entry rest ih =>
    obtain ⟨hentry, hrest⟩ := forall_mem_cons.mp hmore
    rw [append_cons]
    exact ih (h.concat (fun key => (hentry key).1) (fun key => (hentry key).2.1)
      fun key => (hentry key).2.2) hrest

theorem touch (hlookup : tracker.clients.lookup clientKey = some client) (now : ℕ) :
    Delivery { tracker with
      clients := tracker.clients.insert clientKey { client with lastActivityAt := now } } log := by
  refine ⟨fun key => ?_, fun key found hfound => ?_, h.ordered⟩
  · rw [← h.isOpen_eq key]
    by_cases hkey : key = clientKey
    · subst hkey
      simp [hlookup]
    · simp [AList.lookup_insert_ne hkey]
  · rcases Assoc.lookup_insert_cases hfound with ⟨rfl, rfl⟩ | ⟨-, hold⟩
    · exact h.last_eq key client hlookup
    · exact h.last_eq key found hold

/-- An entry about one stream: the others stay as they were. -/
theorem of_key {entry : InboundLog Value} (clientKey : ClientId × StreamId)
    (hrest : ∀ key, key ≠ clientKey → tracker'.clients.lookup key = tracker.clients.lookup key ∧
      isOpen key (log ++ [entry]) = isOpen key log ∧ since key (log ++ [entry]) = since key log)
    (hopen : (tracker'.clients.lookup clientKey).isSome = isOpen clientKey (log ++ [entry]))
    (hlast : ∀ client, tracker'.clients.lookup clientKey = some client →
      client.lastInboundSeqId = (since clientKey (log ++ [entry])).getLast?)
    (hordered : (since clientKey (log ++ [entry])).Pairwise (· < ·)) :
    Delivery tracker' (log ++ [entry]) := by
  refine ⟨fun key => ?_, fun key client hlookup => ?_, h.ordered_concat fun key => ?_⟩
  all_goals by_cases hkey : key = clientKey
  · exact hkey ▸ hopen
  · obtain ⟨hlookup, hisOpen, -⟩ := hrest key hkey
    rw [hlookup, hisOpen, h.isOpen_eq]
  · subst hkey
    exact hlast client hlookup
  · obtain ⟨hsame, -, hsince⟩ := hrest key hkey
    rw [hsince]
    exact h.last_eq key client (hsame ▸ hlookup)
  · exact hkey ▸ hordered
  · rw [(hrest key hkey).2.2]
    exact h.ordered key log (prefix_refl log)

theorem closed (clientKey : ClientId × StreamId) (id : ℕ) :
    Delivery (tracker.removeClient clientKey) (log ++ [.closed clientKey id]) := by
  have hsince : ∀ key, since key (log ++ [.closed clientKey id]) = since key log := by
    intro key
    rw [since_concat (by simp)]
    simp [forwardedSeqId]
  refine h.of_key clientKey (fun key hkey => ⟨lookup_removeClient_ne hkey, ?_, hsince key⟩) ?_ ?_ ?_
  · rw [isOpen_concat_closed]
    simp [Ne.symm hkey]
  · rw [isOpen_concat_closed, lookup_removeClient_self]
    simp
  · intro client hlookup
    rw [lookup_removeClient_self] at hlookup
    cases hlookup
  · rw [hsince]
    exact h.ordered clientKey log (prefix_refl log)

theorem opened (clientKey : ClientId × StreamId) (id now : ℕ)
    (legacy : AList fun _ : ClientId => StreamId) :
    Delivery ⟨tracker.clients.insert clientKey ⟨id, now, none⟩, legacy⟩
      (log ++ [.opened clientKey id]) := by
  refine h.of_key clientKey (fun key hkey => ⟨AList.lookup_insert_ne hkey, ?_, ?_⟩) ?_ ?_ ?_
  · rw [isOpen_concat_opened]
    simp [Ne.symm hkey]
  · rw [since_concat (by simp [Ne.symm hkey])]
    simp [forwardedSeqId]
  · rw [isOpen_concat_opened]
    simp [AList.lookup_insert]
  · intro client hlookup
    rw [AList.lookup_insert] at hlookup
    cases hlookup
    rw [since_concat_opened]
    rfl
  · rw [since_concat_opened]
    exact List.Pairwise.nil

/-- A message that is newer than the last one of its stream. -/
theorem forwarded (hlookup : tracker.clients.lookup clientKey = some client)
    (hnew : ∀ n ∈ seqId, ∀ last ∈ client.lastInboundSeqId, last < n) (id : ℕ)
    (message : JsonRpcMessage Value) :
    Delivery (tracker.recordInboundMessageDelivery clientKey seqId)
      (log ++ [.forwarded clientKey seqId id message]) := by
  cases seqId with
  | none =>
    refine h.concat (by simp) (by simp) ?_
    intro key
    simp [forwardedSeqId]
  | some n =>
    have hself : since clientKey (log ++ [.forwarded clientKey (some n) id message]) =
        since clientKey log ++ [n] := by
      rw [since_concat (by simp)]
      simp [forwardedSeqId]
    have hrecord : tracker.recordInboundMessageDelivery clientKey (some n) = { tracker with
        clients := tracker.clients.insert clientKey
          { client with lastInboundSeqId := some n } } := by
      simp only [recordInboundMessageDelivery, hlookup]
    rw [hrecord]
    refine h.of_key clientKey (fun key hkey => ⟨AList.lookup_insert_ne hkey,
      isOpen_concat (by simp) (by simp), ?_⟩) ?_ ?_ ?_
    · rw [since_concat (by simp)]
      simp [forwardedSeqId, Ne.symm hkey]
    · rw [isOpen_concat (by simp) (by simp), ← h.isOpen_eq]
      simp [hlookup]
    · intro found hfound
      rw [AList.lookup_insert, Option.some_inj] at hfound
      rw [← hfound, hself]
      simp
    · have hordered := h.ordered clientKey log (prefix_refl log)
      rw [hself, pairwise_append]
      refine ⟨hordered, by simp, ?_⟩
      intro m hm n' hn'
      obtain rfl := mem_singleton.mp hn'
      -- the last number is the largest
      have hne : since clientKey log ≠ [] := ne_nil_of_mem hm
      have hlast := h.last_eq clientKey client hlookup
      rw [getLast?_eq_some_getLast hne] at hlast
      have hlt : (since clientKey log).getLast hne < n' := hnew n' rfl _ hlast
      exact ((hordered.imp le_of_lt).rel_getLast hm).trans_lt hlt

/-! ### The calls -/

/-- What a call leaves is as the log says, with what the call has added. -/
def Keeps (log : List (InboundLog Value)) (handled : Handled Value) : Prop :=
  Delivery handled.tracker (log ++ handled.log)

theorem keeps_self (ok : Bool) : Keeps log ⟨ok, tracker, []⟩ := by
  unfold Keeps
  rwa [append_nil]

theorem closeClient (sent : Bool) (clientKey : ClientId × StreamId) :
    Keeps log (tracker.closeClient sent clientKey) := by
  cases hlookup : tracker.clients.lookup clientKey with
  | none =>
    rw [closeClient_of_lookup_none hlookup]
    exact h.keeps_self true
  | some client =>
    rw [closeClient_of_lookup hlookup]
    exact h.closed clientKey _

variable (attempt : Attempt)

theorem forward (hlookup : tracker.clients.lookup clientKey = some client)
    (hnew : tracker.isReplay clientKey seqId = false) (message : JsonRpcMessage Value) :
    Keeps log (tracker.forward attempt clientKey client seqId message) := by
  have htouched := h.touch hlookup attempt.now
  unfold ClientTracker.forward
  cases attempt.incomingSent with
  | true =>
    refine htouched.forwarded (AList.lookup_insert _) ?_ _ _
    rintro n rfl last hlast
    simp only [isReplay, hlookup, Option.any_some, Option.any_eq_false,
      decide_eq_false_iff_not, not_le] at hnew
    exact hnew last hlast
  | false => exact htouched.concat (by simp) (by simp) fun key => rfl

section

variable (clientKey : ClientId × StreamId) (message : JsonRpcMessage Value)

theorem openConnection :
    Keeps log (tracker.openConnection attempt clientKey false seqId message) := by
  have hopened := h.opened clientKey attempt.newConnectionId attempt.now tracker.legacyStreamIds
  unfold ClientTracker.openConnection
  cases attempt.openedSent with
  | false => exact h.concat (by simp) (by simp) fun key => rfl
  | true =>
    unfold Keeps
    cases attempt.incomingSent with
    | true =>
      rw [if_neg (by simp), if_pos rfl, append_cons]
      refine hopened.forwarded (AList.lookup_insert _) ?_ _ _
      intro n _ last hlast
      cases hlast
    | false =>
      rw [if_neg (by simp), if_neg (by simp), append_cons, append_cons]
      refine closed (concat hopened ?_ ?_ ?_) clientKey _
      · simp
      · simp
      · exact fun key => rfl

theorem handleClientMessage :
    Keeps log (tracker.handleClientMessage attempt clientKey false seqId message) := by
  cases hinitialize : message.startsConnection with
  | false =>
    rw [handleClientMessage_of_not_starts hinitialize]
    split_ifs with hreplay
    · exact h.keeps_self true
    · cases hlookup : tracker.clients.lookup clientKey with
      | none => exact h.keeps_self true
      | some client => exact h.forward attempt hlookup (by simpa using hreplay) message
  | true =>
    rw [handleClientMessage_of_starts hinitialize]
    have hclosed := h.closeClient attempt.closedSent clientKey
    unfold Keeps at hclosed ⊢
    dsimp only
    rw [← List.append_assoc]
    split_ifs with hfailed
    · exact hclosed.concat (by simp) (by simp) fun key => rfl
    · exact hclosed.openConnection attempt clientKey message

theorem handlePing : Keeps log (tracker.handlePing attempt clientKey) := by
  unfold ClientTracker.handlePing
  cases hlookup : tracker.clients.lookup clientKey with
  | none => exact h.concat (by simp) (by simp) fun key => rfl
  | some client =>
    exact (h.touch hlookup attempt.now).concat (by simp) (by simp) fun key => rfl

end

theorem handleMessage {envelope : ClientEnvelope Value}
    (hexplicit : envelope.streamId.isSome = true) :
    Keeps log (tracker.handleMessage attempt envelope) := by
  obtain ⟨streamId, hstream⟩ := Option.isSome_iff_exists.mp hexplicit
  unfold ClientTracker.handleMessage
  simp only [resolveStreamId, hstream]
  split_ifs
  · exact h.keeps_self true
  · split
    · exact h.handleClientMessage attempt _ _
    · exact h.keeps_self true
    · exact h.keeps_self true
    · exact h.handlePing attempt _
    · exact h.closeClient _ _

theorem closeClients (sent : ClientId × StreamId → Bool) (clientKeys : List (ClientId × StreamId)) :
    Keeps log (closeClients sent clientKeys tracker) := by
  induction clientKeys generalizing tracker log with
  | nil => exact h.keeps_self true
  | cons clientKey rest ih =>
    have hclosed := h.closeClient (sent clientKey) clientKey
    unfold closeClients
    dsimp only
    split_ifs
    · unfold Keeps at ih ⊢
      rw [← List.append_assoc]
      exact ih hclosed
    · exact hclosed

end Delivery

end ClientTracker

end Codex.RemoteControl
