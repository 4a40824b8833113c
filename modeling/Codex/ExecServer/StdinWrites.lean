import Codex.ExecServer.Process
import Mathlib.Data.Finset.Basic

/-!
# Writes to the input of a process

A client may repeat a write after a reconnect.  The ids of accepted writes are remembered, the newest
4096 of them, so that the bytes of a repeated write are not queued again.  Calls of `exec_write` run
side by side and may be cancelled at every await: they look the id up, wait for a slot of the input
queue and look it up again, and only then queue the bytes and remember the id, with no await between.

`stdin_writes_queued_once` is read off an invariant of the calls and the ids (`Sound`, kept by
every step in `sound`); what the bounded memory of ids holds is `Remembers`.
-/

namespace Codex.ExecServer

open List

def retainedStdinWriteIdsPerProcess : ℕ := 4096

structure AcceptedStdinWriteIds where
  ids : Finset String
  order : List String

namespace AcceptedStdinWriteIds

def contains (accepted : AcceptedStdinWriteIds) (writeId : String) : Bool :=
  writeId ∈ accepted.ids

/-- The loop of `remember`. -/
def evict (ids : Finset String) : List String → AcceptedStdinWriteIds
  | [] => ⟨ids, []⟩
  | evicted :: order =>
    if order.length + 1 > retainedStdinWriteIdsPerProcess then evict (ids.erase evicted) order
    else ⟨ids, evicted :: order⟩

def remember (accepted : AcceptedStdinWriteIds) (writeId : String) : AcceptedStdinWriteIds :=
  if writeId ∈ accepted.ids then accepted
  else evict (insert writeId accepted.ids) (accepted.order ++ [writeId])

/-- The full number of other ids. -/
def Separates (id : String) (between : List String) : Prop :=
  ∃ others, others <:+ between ∧ others.length = retainedStdinWriteIdsPerProcess ∧
    others.Nodup ∧ id ∉ others

/-- The newest ids of the history are remembered, and an id comes again only when it was
forgotten. -/
structure Remembers (accepted : AcceptedStdinWriteIds) (history : List String) : Prop where
  mem_ids : ∀ id, id ∈ accepted.ids ↔ id ∈ accepted.order
  nodup : accepted.order.Nodup
  order_eq : accepted.order = history.drop (history.length - retainedStdinWriteIdsPerProcess)
  separated : ∀ before id between after, history = before ++ id :: between ++ id :: after →
    Separates id between

theorem evict_spec (ids : Finset String) {order : List String}
    (hids : ∀ id, id ∈ ids ↔ id ∈ order) (hnodup : order.Nodup) :
    (evict ids order).order = order.drop (order.length - retainedStdinWriteIdsPerProcess) ∧
      ∀ id, id ∈ (evict ids order).ids ↔ id ∈ (evict ids order).order := by
  induction order generalizing ids with
  | nil => exact ⟨rfl, hids⟩
  | cons evicted order ih =>
    rw [evict]
    split_ifs with hfull
    · obtain ⟨hnew, hnodup⟩ := nodup_cons.mp hnodup
      obtain ⟨horder, hmem⟩ := ih (ids.erase evicted) (fun id => by grind) hnodup
      refine ⟨?_, hmem⟩
      rw [horder, length_cons, Nat.succ_sub (Nat.le_of_lt_succ hfull), drop_succ_cons]
    · rw [length_cons, Nat.sub_eq_zero_of_le (Nat.le_of_not_lt hfull)]
      exact ⟨rfl, hids⟩

variable {accepted : AcceptedStdinWriteIds} {history : List String} {id : String}

/-- The ids remembered are behind the last place of an id that was forgotten. -/
theorem Remembers.separates (h : Remembers accepted history) (hnew : id ∉ accepted.order)
    {before between : List String} (hhistory : history = before ++ id :: between) :
    Separates id between := by
  have horder := h.order_eq
  rw [hhistory] at horder
  rcases Nat.lt_or_ge before.length
    ((before ++ id :: between).length - retainedStdinWriteIdsPerProcess) with hlt | hle
  · refine ⟨accepted.order, ?_, ?_, h.nodup, hnew⟩
    · obtain ⟨n, hn⟩ := Nat.exists_eq_add_of_lt hlt
      rw [horder, hn, Nat.add_assoc, drop_length_add_append, drop_succ_cons]
      exact drop_suffix _ _
    · rw [horder, length_drop]
      omega
  · rw [drop_append_of_le_length hle] at horder
    exact absurd (horder ▸ mem_append_right _ mem_cons_self) hnew

theorem Remembers.remember (h : Remembers accepted history) (hnew : id ∉ accepted.ids) :
    Remembers (accepted.remember id) (history ++ [id]) := by
  have hforgotten := mt (h.mem_ids id).mpr hnew
  have hnodup : (accepted.order ++ [id]).Nodup := concat_eq_append ▸ h.nodup.concat hforgotten
  obtain ⟨horder, hids⟩ := evict_spec (insert id accepted.ids)
    (fun other => by simp [h.mem_ids, or_comm]) hnodup
  rw [AcceptedStdinWriteIds.remember, if_neg hnew]
  refine ⟨hids, horder ▸ hnodup.sublist (drop_sublist _ _), ?_, ?_⟩
  · rw [horder, h.order_eq, ← drop_append_of_le_length (Nat.sub_le _ _), drop_drop, length_drop,
      length_append]
    -- 4096 is not to be counted out
    generalize retainedStdinWriteIdsPerProcess = limit
    congr 1
    rw [length_singleton]
    omega
  · intro before other between after hhistory
    rcases eq_nil_or_concat' after with rfl | ⟨after, last, rfl⟩
    · obtain ⟨hbefore, hlast⟩ := append_inj' hhistory rfl
      cases hlast
      exact h.separates hforgotten hbefore
    · rw [← cons_append, ← append_assoc] at hhistory
      exact h.separated _ _ _ _ (append_inj' hhistory rfl).1

end AcceptedStdinWriteIds

/-! ## The calls -/

structure WriteParams where
  chunk : Bytes
  writeId : String

inductive WriteStatus where
  | accepted
  | unknownProcess
  | stdinClosed
  | starting

structure JSONRPCErrorError where
  code : ℤ
  message : String

def invalidParams (message : String) : JSONRPCErrorError := ⟨-32602, message⟩

def internalError (message : String) : JSONRPCErrorError := ⟨-32603, message⟩

inductive ProcessEntry where
  | starting
  | running (tty pipeStdin : Bool)

/-- Where a call stands: it waits for the process map, for the ids, for a slot of the queue or for
the ids again, or it has ended. -/
inductive WriteCall where
  | entering
  | looking
  | reserving
  | recording
  | answered (answer : Except JSONRPCErrorError WriteStatus)
  | cancelled

namespace WriteCall

abbrev accepted : WriteCall := .answered (.ok .accepted)

/-- Before the first await. -/
def start (params : WriteParams) : WriteCall :=
  if params.writeId = "" then .answered (.error (invalidParams "writeId must not be empty"))
  else .entering

/-- The section of `exec_write` behind an await; `known` tells whether the id is remembered. -/
def next (entry : Option ProcessEntry) (closed known : Bool) : WriteCall → WriteCall
  | .entering =>
    match entry with
    | none => .answered (.ok .unknownProcess)
    | some .starting => .answered (.ok .starting)
    | some (.running tty pipeStdin) =>
      if !tty && !pipeStdin then .answered (.ok .stdinClosed) else .looking
  | .looking => if known then .accepted else .reserving
  | .reserving =>
    if closed then .answered (.error (internalError "failed to write to process stdin"))
    else .recording
  | .recording => .accepted
  | call => call

def cancel : WriteCall → WriteCall
  | .answered answer => .answered answer
  | _ => .cancelled

end WriteCall

/-- A call starts, goes on behind its await, with the entry of the process map and whether the queue
is closed at that moment, or is cancelled there. -/
inductive WriteEvent where
  | call (params : WriteParams)
  | resume (entry : Option ProcessEntry) (closed : Bool)
  | cancel

/-- The calls for one process by their numbers, and what they queued. -/
structure StdinWrites where
  calls : ℕ → Option (WriteParams × WriteCall)
  accepted : AcceptedStdinWriteIds
  queued : List (ℕ × WriteParams)

namespace StdinWrites

def start : StdinWrites := ⟨fun _ => none, ⟨∅, []⟩, []⟩

def setCall (state : StdinWrites) (n : ℕ) (params : WriteParams) (call : WriteCall) : StdinWrites :=
  { state with calls := Function.update state.calls n (some (params, call)) }

/-- The call and what happens to it. -/
def step (state : StdinWrites) (event : ℕ × WriteEvent) : StdinWrites :=
  match event.2, state.calls event.1 with
  | .call params, none => state.setCall event.1 params (.start params)
  | .resume entry closed, some (params, call) =>
    let known := state.accepted.contains params.writeId
    let answered := state.setCall event.1 params (call.next entry closed known)
    match call, known with
    | .recording, false =>
      { answered with
        accepted := state.accepted.remember params.writeId
        queued := state.queued ++ [(event.1, params)] }
    | _, _ => answered
  | .cancel, some (params, call) => state.setCall event.1 params call.cancel
  | _, _ => state

def queuedIds (state : StdinWrites) : List String := state.queued.map (·.2.writeId)

/-- Only a call that is answered with `accepted` has queued its bytes, and an id that is so answered
was queued. -/
structure Sound (state : StdinWrites) : Prop where
  remembers : state.accepted.Remembers state.queuedIds
  call_of_queued : ∀ n params, (n, params) ∈ state.queued →
    state.calls n = some (params, .accepted)
  queued_of_accepted : ∀ n params, state.calls n = some (params, .accepted) →
    params.writeId ∈ state.queuedIds

variable {state : StdinWrites} {n : ℕ} {params : WriteParams} {call next : WriteCall}

theorem calls_setCall (m : ℕ) : (state.setCall n params call).calls m =
    if m = n then some (params, call) else state.calls m :=
  Function.update_apply ..

theorem Sound.setCall (h : Sound state)
    (hkeep : ∀ others, state.calls n = some (others, .accepted) →
      params = others ∧ next = .accepted)
    (hnext : next = .accepted → params.writeId ∈ state.queuedIds) :
    Sound (state.setCall n params next) where
  remembers := h.remembers
  call_of_queued m others hmem := by
    have hcall := h.call_of_queued m others hmem
    rw [calls_setCall]
    split_ifs with hm
    · obtain ⟨rfl, rfl⟩ := hkeep others (hm ▸ hcall)
      rfl
    · exact hcall
  queued_of_accepted m others hcall := by
    rw [calls_setCall] at hcall
    split_ifs at hcall
    · cases hcall
      exact hnext rfl
    · exact h.queued_of_accepted m others hcall

theorem Sound.queue (h : Sound state) (hn : state.calls n = some (params, .recording))
    (hnew : state.accepted.contains params.writeId = false) :
    Sound { state.setCall n params .accepted with
      accepted := state.accepted.remember params.writeId
      queued := state.queued ++ [(n, params)] } := by
  have hids : (state.queued ++ [(n, params)]).map (·.2.writeId) =
      state.queuedIds ++ [params.writeId] := map_append
  refine ⟨?_, ?_, ?_⟩
  · rw [queuedIds, hids]
    exact h.remembers.remember (of_decide_eq_false hnew)
  · intro m others hmem
    have hcall := h.call_of_queued m others
    rw [calls_setCall]
    grind
  · intro m others hcall
    have hold := h.queued_of_accepted m others
    rw [queuedIds, hids]
    rw [calls_setCall] at hcall
    grind

theorem Sound.step (h : Sound state) (event : ℕ × WriteEvent) : Sound (state.step event) := by
  unfold StdinWrites.step
  split
  next params _ hn =>
    refine h.setCall (fun others hcall => by simp [hn] at hcall) fun hstart => ?_
    rw [WriteCall.start] at hstart
    split_ifs at hstart
    cases hstart
  next entry closed params call _ hn =>
    dsimp only
    split
    next hnew => exact h.queue hn hnew
    next call _ _ hother =>
      refine h.setCall (fun others hcall => ?_) fun hnext => ?_
      · cases hn.symm.trans hcall
        exact ⟨rfl, rfl⟩
      · cases hknown : state.accepted.contains params.writeId with
        | true =>
          have horder := (h.remembers.mem_ids _).mp (of_decide_eq_true hknown)
          rw [h.remembers.order_eq] at horder
          exact mem_of_mem_drop horder
        | false =>
          cases call with
          | recording => exact (hother rfl hknown).elim
          | answered answer =>
            cases hnext
            exact h.queued_of_accepted _ params hn
          | _ =>
            unfold WriteCall.next at hnext
            grind
  next params call _ hn =>
    refine h.setCall (fun others hcall => ?_) fun hnext => ?_
    · cases hn.symm.trans hcall
      exact ⟨rfl, rfl⟩
    · cases call with
      | answered answer =>
        cases hnext
        exact h.queued_of_accepted _ params hn
      | _ => cases hnext
  next => exact h

theorem sound (events : List (ℕ × WriteEvent)) : Sound (events.foldl step start) := by
  induction events using List.reverseRecOn with
  | nil => exact ⟨⟨by simp [start], nodup_nil, rfl, by simp [queuedIds, start]⟩, by simp [start],
      by simp [start]⟩
  | append_singleton events event ih =>
    rw [foldl_concat]
    exact ih.step event

/-- Calls start, go on and are cancelled in any order.  Two writes with one id have the full number
of other ids between them; `accepted` is the answer for an id that was queued; a call that was
cancelled or has failed has queued nothing, and its id is not remembered or is once among the newest
writes; the set and the eviction queue hold the same ids. -/
theorem stdin_writes_queued_once (events : List (ℕ × WriteEvent)) :
    let state := events.foldl step start
    (∀ before first between second after,
      state.queued = before ++ first :: between ++ second :: after →
      first.2.writeId = second.2.writeId →
      ∃ others, others <:+ between.map (·.2.writeId) ∧ others.length = 4096 ∧ others.Nodup ∧
        first.2.writeId ∉ others) ∧
    (∀ n params, state.calls n = some (params, .accepted) → params.writeId ∈ state.queuedIds) ∧
    (∀ n params call, state.calls n = some (params, call) →
      call = .cancelled ∨ (∃ error, call = .answered (.error error)) →
      (∀ write ∈ state.queued, write.1 ≠ n) ∧
      (params.writeId ∉ state.accepted.ids ∨
        (state.queuedIds.drop (state.queuedIds.length - 4096)).count params.writeId = 1)) ∧
    (∀ id, id ∈ state.accepted.ids ↔ id ∈ state.accepted.order) ∧
    state.accepted.order.Nodup ∧ state.accepted.order.length ≤ 4096 := by
  intro state
  have h : Sound state := sound events
  have horder := h.remembers.order_eq
  rw [retainedStdinWriteIdsPerProcess] at horder
  refine ⟨?_, h.queued_of_accepted, ?_, h.remembers.mem_ids, h.remembers.nodup, ?_⟩
  · intro before first between second after hqueued hsame
    refine h.remembers.separated (before.map (·.2.writeId)) _ _ (after.map (·.2.writeId)) ?_
    rw [queuedIds, hqueued, map_append, map_append, map_cons, map_cons, hsame]
  · intro n params call hn hended
    constructor
    · rintro ⟨m, others⟩ hmem rfl
      cases hn.symm.trans (h.call_of_queued m others hmem)
      simp at hended
    · rw [← horder, h.remembers.mem_ids]
      exact or_iff_not_imp_left.mpr fun hmem =>
        count_eq_one_of_mem h.remembers.nodup (not_not.mp hmem)
  · rw [horder, length_drop]
    omega

end StdinWrites

end Codex.ExecServer
