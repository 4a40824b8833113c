import Codex.ExecServer.Session
import Mathlib.Data.List.TakeWhile

/-!
# Publishing in order

A session that runs has published the beginning of the trace, and what it keeps are other events of
the trace (`Running`).  Inserting a genuine event and publishing what is ready keep this.  Neither
takes a number from the session: it `Has` the numbers it has published and those it keeps.
-/

namespace Codex.ExecServer

open SortedMap List

/-! ## Events up to the flag of the exit -/

namespace ExecProcessEvent

def unflagged : ExecProcessEvent → ExecProcessEvent
  | .exited seq exitCode _ => .exited seq exitCode none
  | event => event

def isFailed : ExecProcessEvent → Bool
  | .failed _ => true
  | _ => false

@[simp] theorem seq_unflagged (event : ExecProcessEvent) : event.unflagged.seq = event.seq := by
  cases event <;> rfl

@[simp] theorem isExited_unflagged (event : ExecProcessEvent) :
    event.unflagged.isExited = event.isExited := by
  cases event <;> rfl

@[simp] theorem isClosed_unflagged (event : ExecProcessEvent) :
    event.unflagged.isClosed = event.isClosed := by
  cases event <;> rfl

end ExecProcessEvent

open ExecProcessEvent

/-- The events before a failure. -/
def published (session : SessionState) : List ExecProcessEvent :=
  session.events.takeWhile fun event => !event.isFailed

/-- An event of the trace, up to the flag. -/
def Genuine (trace : Trace) (event : ExecProcessEvent) : Prop :=
  ∃ actual ∈ trace.events, event.unflagged = actual.unflagged

section Genuine

variable {trace : Trace} {event : ExecProcessEvent}

theorem Genuine.of_mem (h : event ∈ trace.events) : Genuine trace event := ⟨event, h, rfl⟩

theorem Genuine.seq_isSome (h : Genuine trace event) : ∃ seq, event.seq = some seq := by
  obtain ⟨actual, hactual, hsame⟩ := h
  obtain ⟨n, hn⟩ := mem_iff_getElem?.mp hactual
  refine ⟨n + 1, ?_⟩
  rw [← seq_unflagged, hsame, seq_unflagged]
  exact trace.isTrace.numbered n actual hn

theorem Genuine.actual (h : Genuine trace event) {seq : ℕ} (hseq : event.seq = some seq) :
    ∃ actual, 0 < seq ∧ trace.events[seq - 1]? = some actual ∧
      event.unflagged = actual.unflagged := by
  obtain ⟨actual, hactual, hsame⟩ := h
  have hnumber : actual.seq = some seq := by rw [← seq_unflagged, ← hsame, seq_unflagged, hseq]
  obtain ⟨hpos, hget⟩ := trace.isTrace.getElem?_of_seq hactual hnumber
  exact ⟨actual, hpos, hget, hsame⟩

variable (hevent : event ∈ trace.events)
include hevent

theorem seq_le_of_mem {seq : ℕ} (hseq : event.seq = some seq) :
    0 < seq ∧ seq ≤ trace.events.length := by
  obtain ⟨hpos, hget⟩ := trace.isTrace.getElem?_of_seq hevent hseq
  have hlt := (List.getElem?_eq_some_iff.mp hget).1
  omega

/-- Events of the trace with one number are one event. -/
theorem eq_of_seq {other : ExecProcessEvent} {seq : ℕ} (hother : other ∈ trace.events)
    (hseq : event.seq = some seq) (hseq' : other.seq = some seq) : event = other := by
  have hget := (trace.isTrace.getElem?_of_seq hevent hseq).2
  rw [(trace.isTrace.getElem?_of_seq hother hseq').2] at hget
  exact (Option.some.inj hget).symm

theorem mem_take_of_seq {seq moment : ℕ} (hseq : event.seq = some seq) :
    event ∈ trace.events.take moment ↔ seq ≤ moment := by
  obtain ⟨hpos, hget⟩ := trace.isTrace.getElem?_of_seq hevent hseq
  constructor
  · intro hmem
    obtain ⟨n, hn⟩ := mem_iff_getElem?.mp hmem
    rw [getElem?_take] at hn
    split_ifs at hn with hlt
    have hplace := trace.isTrace.numbered n event hn
    rw [hseq] at hplace
    have := Option.some.inj hplace
    omega
  · intro hle
    refine mem_iff_getElem?.mpr ⟨seq - 1, ?_⟩
    rw [getElem?_take, if_pos (by omega), hget]

end Genuine

/-! ## Running sessions -/

/-- A session that has not failed: it has published the beginning of the trace in order, and keeps
other events of the trace. -/
structure Running (trace : Trace) (session : SessionState) : Prop where
  failure : session.failure = none
  last_le : session.lastPublishedSeq ≤ trace.events.length
  events : session.events.map unflagged = (trace.events.take session.lastPublishedSeq).map unflagged
  exitPublished : session.exitPublished = (trace.events.take session.lastPublishedSeq).any isExited
  closedPublished : session.closedPublished =
    (trace.events.take session.lastPublishedSeq).any isClosed
  pending : ∀ seq event, session.pending.get seq = some event →
    session.lastPublishedSeq < seq ∧ event.seq = some seq ∧ Genuine trace event
  pendingBytes : session.pendingBytes =
    session.pending.total fun entry => pendingProcessEventBytes entry.2

/-- The next event to be published has not come. -/
def Settled (session : SessionState) : Prop :=
  session.pending.get (session.lastPublishedSeq + 1) = none

/-- The session has published the event of this number, or keeps it. -/
def Has (session : SessionState) (seq : ℕ) : Prop :=
  seq ≤ session.lastPublishedSeq ∨ (session.pending.get seq).isSome

variable {trace : Trace} {session : SessionState}

theorem Running.new (trace : Trace) : Running trace .new :=
  ⟨rfl, Nat.zero_le _, rfl, rfl, rfl, (fun _ _ h => by cases h), rfl⟩

theorem Settled.new : Settled .new := rfl

theorem Settled.not_has (h : Settled session) : ¬ Has session (session.lastPublishedSeq + 1) := by
  rintro (hle | hsome)
  · omega
  · rw [h] at hsome
    cases hsome

theorem Running.isFailed_eq_false (h : Running trace session) :
    ∀ event ∈ session.events, event.isFailed = false := by
  intro event hevent
  have hmem := mem_map_of_mem (f := unflagged) hevent
  rw [h.events] at hmem
  obtain ⟨actual, hactual, hsame⟩ := mem_map.mp hmem
  obtain ⟨seq, hseq⟩ := (Genuine.of_mem (mem_of_mem_take hactual)).seq_isSome
  have hnumber : event.seq = some seq := by rw [← seq_unflagged, ← hsame, seq_unflagged, hseq]
  cases event with
  | failed message => cases hnumber
  | _ => rfl

theorem Running.published_eq (h : Running trace session) : published session = session.events := by
  rw [published, takeWhile_eq_self_iff]
  intro event hevent
  rw [h.isFailed_eq_false event hevent]
  rfl

theorem Running.length_events (h : Running trace session) :
    session.events.length = session.lastPublishedSeq := by
  have hlength := congrArg List.length h.events
  rwa [length_map, length_map, length_take_of_le h.last_le] at hlength

/-! ## Inserting -/

/-- The session with an event that it did not have. -/
def SessionState.keep (session : SessionState) (seq : ℕ) (event : ExecProcessEvent) :
    SessionState :=
  { session with
    pending := session.pending.insert seq event
    pendingBytes := session.pendingBytes + pendingProcessEventBytes event }

variable {event : ExecProcessEvent}

/-- An event that is kept already is not inserted again, and an error changes nothing. -/
theorem insertPending_eq {seq : ℕ} (hseq : event.seq = some seq) :
    ((session.pending.get seq).isSome ∧ session.insertPending event = .ok session) ∨
      session.pending.get seq = none ∧ (session.insertPending event = .ok (session.keep seq event) ∨
        ∃ error, session.insertPending event = .error error) := by
  rw [SessionState.insertPending, hseq]
  dsimp only
  split_ifs with hkept hentries hsize hbytes
  · exact .inl ⟨hkept, rfl⟩
  all_goals
    refine .inr ⟨Option.not_isSome_iff_eq_none.mp hkept, ?_⟩
  · exact .inr ⟨_, rfl⟩
  · exact .inr ⟨_, rfl⟩
  · exact .inr ⟨_, rfl⟩
  · exact .inl rfl

/-- The next event is inserted, however many are kept. -/
theorem insertPending_next (h : Settled session)
    (hseq : event.seq = some (session.lastPublishedSeq + 1))
    (hsize : pendingProcessEventBytes event ≤ maxPendingProcessEventBytes) :
    session.insertPending event = .ok (session.keep (session.lastPublishedSeq + 1) event) := by
  rw [SessionState.insertPending, hseq]
  dsimp only
  rw [h, if_neg (by simp), if_neg (by simp), if_neg (Nat.not_lt_of_le hsize), if_neg (by simp)]
  rfl

theorem get_keep {seq : ℕ} {seq' : ℕ} :
    (session.keep seq event).pending.get seq' =
      if seq' = seq then some event else session.pending.get seq' :=
  get_insert

theorem Running.keep (h : Running trace session) {seq : ℕ} (hnew : session.pending.get seq = none)
    (hlast : session.lastPublishedSeq < seq) (hseq : event.seq = some seq)
    (hgenuine : Genuine trace event) : Running trace (session.keep seq event) := by
  refine ⟨h.failure, h.last_le, h.events, h.exitPublished, h.closedPublished, ?_, ?_⟩
  · intro seq' event' hget
    rw [get_keep] at hget
    split_ifs at hget with heq
    · cases hget
      exact ⟨heq ▸ hlast, heq ▸ hseq, hgenuine⟩
    · exact h.pending seq' event' hget
  · rw [SessionState.keep, total_insert _ hnew, ← h.pendingBytes, Nat.add_comm]

theorem has_keep {seq : ℕ} {seq' : ℕ} :
    Has (session.keep seq event) seq' ↔ Has session seq' ∨ seq' = seq := by
  change seq' ≤ session.lastPublishedSeq ∨ _ ↔ _
  rw [Has, get_keep]
  split_ifs with heq
  · simp [heq]
  · simp [heq]

/-! ## Publishing -/

/-- What publishing changes: the next numbers are no longer pending but published. -/
structure Advance (session session' : SessionState) : Prop where
  last_le : session.lastPublishedSeq ≤ session'.lastPublishedSeq
  has : ∀ seq, Has session' seq ↔ Has session seq
  events : session.events <+: session'.events
  pending : ∀ seq event, session'.pending.get seq = some event → session.pending.get seq = some event

theorem Advance.refl (session : SessionState) : Advance session session :=
  ⟨Nat.le_refl _, fun _ => Iff.rfl, prefix_rfl, fun _ _ h => h⟩

variable {session' : SessionState}

theorem Advance.trans {session'' : SessionState} (h : Advance session session')
    (h' : Advance session' session'') : Advance session session'' :=
  ⟨Nat.le_trans h.last_le h'.last_le, fun seq => (h'.has seq).trans (h.has seq),
    h.events.trans h'.events, fun seq event hget => h.pending seq event (h'.pending seq event hget)⟩

theorem advance_publish (hnext : session.pending.get (session.lastPublishedSeq + 1) = some event) :
    Advance session (session.publish event) := by
  refine ⟨Nat.le_succ _, fun seq => ?_, prefix_append _ _, fun seq other hget => ?_⟩
  · rw [Has, Has, SessionState.publish, get_erase]
    dsimp only
    split_ifs with heq
    · rw [heq, hnext]
      simp
    · constructor
      all_goals
        rintro (hle | hsome)
        · exact .inl (by omega)
        · exact .inr hsome
  · rw [SessionState.publish, get_erase] at hget
    split_ifs at hget
    exact hget

theorem Running.publish (h : Running trace session)
    (hnext : session.pending.get (session.lastPublishedSeq + 1) = some event) :
    Running trace (session.publish event) := by
  obtain ⟨-, hseq, hgenuine⟩ := h.pending _ event hnext
  obtain ⟨actual, -, hget, hsame⟩ := hgenuine.actual hseq
  rw [Nat.add_sub_cancel] at hget
  have htake : trace.events.take (session.lastPublishedSeq + 1) =
      trace.events.take session.lastPublishedSeq ++ [actual] := by
    rw [take_add_one, hget]
    rfl
  refine ⟨h.failure, ?_, ?_, ?_, ?_, ?_, ?_⟩
  · exact (List.getElem?_eq_some_iff.mp hget).1
  · change (session.events ++ [event]).map unflagged =
      (trace.events.take (session.lastPublishedSeq + 1)).map unflagged
    rw [htake, map_append, map_append, h.events, map_singleton, hsame]
    rfl
  · change (session.exitPublished || event.isExited) =
      (trace.events.take (session.lastPublishedSeq + 1)).any isExited
    rw [htake, h.exitPublished, ← isExited_unflagged event, hsame]
    simp
  · change (session.closedPublished || event.isClosed) =
      (trace.events.take (session.lastPublishedSeq + 1)).any isClosed
    rw [htake, h.closedPublished, ← isClosed_unflagged event, hsame]
    simp
  · intro seq other hother
    rw [SessionState.publish, get_erase] at hother
    split_ifs at hother with heq
    obtain ⟨hlast, hrest⟩ := h.pending seq other hother
    exact ⟨by change session.lastPublishedSeq + 1 < seq; omega, hrest⟩
  · change session.pendingBytes - pendingProcessEventBytes event = _
    rw [h.pendingBytes, total_erase _ hnext]
    exact Nat.add_sub_cancel_left ..

open SessionState

theorem publishRounds_spec (trace : Trace) (rounds : ℕ) (publishedClosed : Bool)
    (hrounds : session.pending.entries.length ≤ rounds) :
    Advance session (publishRounds rounds session publishedClosed).2 ∧
      Settled (publishRounds rounds session publishedClosed).2 ∧
      (Running trace session →
        Running trace (publishRounds rounds session publishedClosed).2) := by
  induction rounds generalizing session publishedClosed with
  | zero =>
    refine ⟨Advance.refl _, ?_, id⟩
    have hnil := eq_nil_of_length_eq_zero (Nat.le_zero.mp hrounds)
    rw [publishRounds, Settled, SortedMap.get, hnil]
    rfl
  | succ rounds ih =>
    rw [publishRounds]
    cases hnext : session.pending.get (session.lastPublishedSeq + 1) with
    | none => exact ⟨Advance.refl _, hnext, id⟩
    | some event =>
      have hlength := length_erase hnext
      have hfewer : (session.publish event).pending.entries.length ≤ rounds := by
        change (session.pending.erase (session.lastPublishedSeq + 1)).entries.length ≤ rounds
        omega
      obtain ⟨hadvance, hsettled, hrunning⟩ := ih (publishedClosed || event.isClosed) hfewer
      exact ⟨(advance_publish hnext).trans hadvance, hsettled, fun h => hrunning (h.publish hnext)⟩

theorem publishReady_advance (session : SessionState) : Advance session session.publishReady.2 :=
  (publishRounds_spec ⟨[], .nil⟩ _ false (Nat.le_refl _)).1

theorem settled_publishReady (session : SessionState) : Settled session.publishReady.2 :=
  (publishRounds_spec ⟨[], .nil⟩ _ false (Nat.le_refl _)).2.1

theorem Running.publishReady (h : Running trace session) : Running trace session.publishReady.2 :=
  (publishRounds_spec trace _ false (Nat.le_refl _)).2.2 h

/-! ## Taking an event -/

/-- The session has taken the event of a number and published what is ready. -/
structure Took (trace : Trace) (seq : ℕ) (session session' : SessionState) : Prop where
  running : Running trace session'
  settled : Settled session'
  last_le : session.lastPublishedSeq ≤ session'.lastPublishedSeq
  has : ∀ seq', Has session' seq' ↔ Has session seq' ∨ seq' = seq

/-- The next event is published when it is taken. -/
theorem Took.published (h : Took trace (session.lastPublishedSeq + 1) session session') :
    session.lastPublishedSeq + 1 ≤ session'.lastPublishedSeq := by
  rcases (h.has _).mpr (.inr rfl) with hle | hsome
  · exact hle
  · by_contra hlt
    have hsame : session'.lastPublishedSeq = session.lastPublishedSeq := by
      have := h.last_le
      omega
    rw [← hsame, h.settled] at hsome
    cases hsome

end Codex.ExecServer
