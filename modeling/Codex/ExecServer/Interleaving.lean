import Codex.ExecServer.Recovery

/-!
# Notifications, recoveries and failures

The sections of a session in which its events are locked: a notification, a recovery, a failure.  They
come in any order, and an error of the first two is followed by a failure sooner or later.  What a
session publishes is the beginning of the trace as long as no recovery takes missing output for the
exit, and only as long.

`faithful_iff_safe` says so.  One direction is the invariant `InOrder` along the run
(`inOrder_afterSteps`); in the other one the first unsafe recovery publishes what is not in the
trace (`safe_of_isPrefix`), as in `evicted_output_published_as_exit`.
-/

namespace Codex.ExecServer

open ExecProcessEvent List

inductive ClientStep where
  | notified (event : ExecProcessEvent)
  | recovered (response : ReadResponse)
  | failed (message : String)

def SessionState.step (session : SessionState) : ClientStep → SessionState
  | .notified event => ((notify event).exec session).2
  | .recovered response => ((recoverEvents response).exec session).2
  | .failed message => session.setFailure message

def afterSteps (steps : List ClientStep) : SessionState := steps.foldl SessionState.step .new

theorem afterSteps_concat (past : List ClientStep) (next : ClientStep) :
    afterSteps (past ++ [next]) = (afterSteps past).step next := foldl_concat ..

/-- What the client is told: events of the trace, in any order and any number of times, and responses
that describe the process at some moment. -/
def Possible (trace : Trace) : ClientStep → Prop
  | .notified event => Genuine trace event
  | .recovered response => Describes trace response
  | .failed _ => True

variable (processId : String) (response : ReadResponse) (session : SessionState)

/-- A recovery with the failure that follows its error, if nothing comes in between. -/
def recoverProcess : SessionState :=
  match (recoverEvents response).exec session with
  | (.ok _, session) => session
  | (.error error, session) => session.setFailure
      ("failed to recover process " ++ processId ++ ": exec-server protocol error: " ++
        error.message)

/-! ## Sessions that have failed -/

/-- A session that has failed keeps nothing, and the failure is the last thing it published. -/
structure Failed (trace : Trace) (session : SessionState) : Prop where
  failure : session.failure.isSome
  events : ∃ before message, session.events = before ++ [.failed message] ∧
    (∀ event ∈ before, event.isFailed = false) ∧
    before.map unflagged <+: trace.events.map unflagged
  pending : session.pending = .empty
  pendingBytes : session.pendingBytes = 0

/-- What holds of a session at every moment. -/
def InOrder (trace : Trace) (session : SessionState) : Prop :=
  Running trace session ∧ Settled session ∨ Failed trace session

variable {trace : Trace} {session : SessionState} {response : ReadResponse}

theorem Running.isPrefix (h : Running trace session) :
    session.events.map unflagged <+: trace.events.map unflagged := by
  rw [h.events]
  exact (List.take_prefix _ _).map _

theorem InOrder.published_isPrefix (h : InOrder trace session) :
    (published session).map unflagged <+: trace.events.map unflagged := by
  rcases h with ⟨hrunning, -⟩ | hfailed
  · rw [hrunning.published_eq]
    exact hrunning.isPrefix
  · obtain ⟨before, message, hevents, hnone, hstarts⟩ := hfailed.events
    have hpublished : published session = before := by
      rw [published, hevents, takeWhile_append_of_pos fun event hevent => by
        rw [hnone event hevent]
        rfl]
      exact append_nil before
    rwa [hpublished]

theorem InOrder.pendingBytes (h : InOrder trace session) :
    session.pendingBytes = session.pending.total fun entry => pendingProcessEventBytes entry.2 := by
  rcases h with ⟨hrunning, -⟩ | hfailed
  · exact hrunning.pendingBytes
  · rw [hfailed.pending, hfailed.pendingBytes]
    rfl

theorem inOrder_setFailure (h : InOrder trace session) (message : String) :
    InOrder trace (session.setFailure message) := by
  rw [SessionState.setFailure]
  split_ifs with hover
  · exact h
  · rcases h with ⟨hrunning, -⟩ | hfailed
    · exact .inr ⟨rfl, ⟨session.events, message, rfl, hrunning.isFailed_eq_false,
        hrunning.isPrefix⟩, rfl, rfl⟩
    · exact absurd (.inl hfailed.failure) hover

theorem Running.noteChange (h : Running trace session) (seq : ℕ) :
    Running trace (session.noteChange seq) :=
  ⟨h.failure, h.last_le, h.events, h.exitPublished, h.closedPublished, h.pending, h.pendingBytes⟩

theorem InOrder.noteChange (h : InOrder trace session) (seq : ℕ) :
    InOrder trace (session.noteChange seq) :=
  h.imp (fun hrunning => ⟨hrunning.1.noteChange seq, hrunning.2⟩) fun hfailed =>
    ⟨hfailed.failure, hfailed.events, hfailed.pending, hfailed.pendingBytes⟩

/-! ## Notifications -/

theorem notify_triple {event : ExecProcessEvent} (hgenuine : Genuine trace event) :
    Triple (InOrder trace) (notify event) (fun _ => InOrder trace) (fun _ => InOrder trace) := by
  obtain ⟨seq, hseq⟩ := hgenuine.seq_isSome
  rw [notify, publishOrderedEvent, hseq]
  refine .bind (Q := fun _ => InOrder trace) (.read fun session hsession => ?_)
    fun closed => .bind (.update fun session hsession => hsession.noteChange _)
      fun _ => .pure fun _ hsession => hsession
  split_ifs with hskip
  · exact .pure fun session' hsame => hsame ▸ hsession
  · rw [not_or, Nat.not_le] at hskip
    obtain ⟨hlive, hlast⟩ := hskip
    rcases hsession with ⟨hrunning, hsettled⟩ | hfailed
    · refine .bind (insertPending_triple (fun _ hok => hok) fun _ _ => ?_) fun _ =>
        (publishReady_triple hrunning hseq hlast hgenuine).weaken (fun _ hok => hok)
          (fun _ _ htook => ?_) fun _ _ hend => hend
      · exact .inl ⟨hrunning, hsettled⟩
      · exact .inl ⟨htook.running, htook.settled⟩
    · exact absurd (.inl hfailed.failure) hlive

/-! ## Recoveries -/

/-- No output that is missing in the response is taken for the exit. -/
def Safe (trace : Trace) (session : SessionState) (response : ReadResponse) : Prop :=
  ¬ session.Over → session.lastPublishedSeq < targetSeq response → Placed trace response session

/-- A recovery keeps the session in order; if it succeeds, or if no output is missing, a session that
has not failed reaches the target. -/
theorem recoverEvents_triple (h : Describes trace response) (hsession : InOrder trace session)
    (hsafe : Safe trace session response) :
    Triple (· = session) (recoverEvents response)
      (fun _ session' => InOrder trace session' ∧ (session.failure = none →
        session'.failure = none ∧ targetSeq response ≤ session'.lastPublishedSeq))
      (fun _ session' => InOrder trace session' ∧
        ¬ Complete trace response session.lastPublishedSeq) := by
  rw [recoverEvents, h.failure]
  refine .read ?_
  rintro session' rfl
  split_ifs with hskip
  · refine .pure ?_
    rintro session'' rfl
    refine ⟨hsession, fun hnone => ⟨hnone, ?_⟩⟩
    rcases hskip with (hfailed | hclosed) | hpast
    · rw [hnone] at hfailed
      cases hfailed
    · -- the close was published, and with it everything
      rcases hsession with ⟨hrunning, -⟩ | hfailed
      · exact h.target_le_of_closedPublished hrunning hclosed
      · have := hfailed.failure
        rw [hnone] at this
        cases this
    · exact hpast
  · rw [not_or, Nat.not_le] at hskip
    obtain ⟨hlive, hlast⟩ := hskip
    rcases hsession with ⟨hrunning, hsettled⟩ | hfailed
    · have hrecover := recoverTo_triple h hrunning hsettled hlast (hsafe hlive hlast)
      refine .bind (hrecover.of_error fun _ _ hbroken => ?_) fun closed =>
        .bind (.update fun session'' hend => ?_) fun _ => .pure fun _ hend => hend
      · exact ⟨.inl ⟨hbroken.1, hbroken.2.1⟩, hbroken.2.2⟩
      · exact ⟨.inl ⟨hend.1.noteChange _, hend.2.1⟩, fun _ => ⟨hend.1.failure, hend.2.2⟩⟩
    · exact absurd (.inl hfailed.failure) hlive

/-! ## Output taken for the exit -/

/-- What every part of a recovery keeps. -/
structure Kept (P : SessionState → Prop) : Prop where
  insert : ∀ {session session' event}, P session → session.insertPending event = .ok session' →
    P session'
  publish : ∀ {session}, P session → P session.publishReady.2
  note : ∀ {session} seq, P session → P (session.noteChange seq)

namespace Kept

variable {P : SessionState → Prop} (h : Kept P)

include h

theorem insertPending (event : ExecProcessEvent) :
    Triple P (insertPending event) (fun _ => P) (fun _ => P) := fun session hsession =>
  insertPending_triple (Q := fun _ => P) (E := fun _ => P) (fun _ hok => h.insert hsession hok)
    (fun _ _ => hsession) session rfl

variable (response : ReadResponse)

theorem insertExit (seq : ℕ) : Triple P (insertExit response seq) (fun _ => P) (fun _ => P) := by
  rw [ExecServer.insertExit]
  cases response.exitCode with
  | none => exact .throw fun _ hsession => hsession
  | some exitCode => exact h.insertPending _

theorem publishReady : Triple P publishReady (fun _ => P) (fun _ => P) :=
  .step fun _ hsession => h.publish hsession

theorem recoverGap (recovered : Recovered) (chunk : ProcessOutputChunk) :
    Triple P (recoverGap response recovered chunk) (fun _ => P) (fun _ => P) := by
  rw [ExecServer.recoverGap]
  refine .read_any fun session => ?_
  split_ifs
  · exact .bind (h.insertExit _ _) fun _ =>
      .bind h.publishReady fun _ => .pure fun _ hend => hend
  · exact .pure fun _ hend => hend

theorem recoverOutput (recovered : Recovered) (chunk : ProcessOutputChunk) :
    Triple P (recoverOutput recovered chunk) (fun _ => P) (fun _ => P) := by
  rw [ExecServer.recoverOutput]
  refine .read_any fun session => ?_
  split_ifs
  · exact .bind (h.insertPending _) fun _ =>
      .bind h.publishReady fun _ => .pure fun _ hend => hend
  · exact .pure fun _ hend => hend

theorem recoverChunk (target : ℕ) (recovered : Recovered) (chunk : ProcessOutputChunk) :
    Triple P (recoverChunk response target recovered chunk) (fun _ => P) (fun _ => P) := by
  rw [ExecServer.recoverChunk]
  split_ifs
  · exact .throw fun _ hsession => hsession
  · exact .bind (h.recoverGap _ _ _) fun _ => h.recoverOutput _ _

theorem recoverClosed (target : ℕ) :
    Triple P (recoverClosed response target) (fun _ => P) (fun _ => P) := by
  rw [ExecServer.recoverClosed]
  refine .read_any fun session => ?_
  split_ifs
  · exact h.insertPending _
  · exact .pure fun _ hend => hend

theorem recoverExit (target : ℕ) (exitKnown : Bool) :
    Triple P (recoverExit response target exitKnown) (fun _ => P) (fun _ => P) := by
  rw [ExecServer.recoverExit]
  refine .read_any fun session => ?_
  split_ifs
  · exact .throw fun _ hend => hend
  · exact h.insertExit _ _
  · exact .throw fun _ hend => hend
  · exact .pure fun _ hend => hend

end Kept

/-- What was published stays published. -/
theorem kept_events (published : List ExecProcessEvent) :
    Kept fun session => published <+: session.events where
  insert := fun hstarts hok => by
    rw [SessionState.insertPending] at hok
    split at hok
    · cases hok
    · split_ifs at hok <;> cases hok <;> exact hstarts
  publish := fun hstarts => hstarts.trans (publishReady_advance _).events
  note := fun _ hstarts => hstarts

/-- The next event is published as soon as it is there. -/
theorem publishReady_next {event : ExecProcessEvent}
    (hget : session.pending.get (session.lastPublishedSeq + 1) = some event) :
    session.events ++ [event] <+: session.publishReady.2.events := by
  rw [SessionState.publishReady, SortedMap.length_erase hget, SessionState.publishRounds, hget]
  exact (@publishRounds_spec (session.publish event) ⟨[], .nil⟩ _ (false || event.isClosed)
    (Nat.le_refl (session.publish event).pending.entries.length)).1.events

/-- The events with an exit right after those published. -/
def misplaced (session : SessionState) (response : ReadResponse) (exitCode : ℤ) :
    List ExecProcessEvent :=
  session.events ++ [.exited (session.lastPublishedSeq + 1) exitCode (some response.sandboxDenied)]

theorem recoverGap_misplaced {exitCode : ℤ} (hcode : response.exitCode = some exitCode)
    (hexited : response.exited) {chunk : ProcessOutputChunk}
    (hgap : session.lastPublishedSeq + 1 < chunk.seq) (hsettled : Settled session) :
    Triple (· = session) (recoverGap response ⟨false, false⟩ chunk)
      (fun _ session' => misplaced session response exitCode <+: session'.events)
      (fun _ session' => misplaced session response exitCode <+: session'.events) := by
  have hok := insertPending_next hsettled (show (exited
    (session.lastPublishedSeq + 1) exitCode (some response.sandboxDenied)).seq = _ from rfl)
    (Nat.zero_le _)
  refine .read ?_
  rintro session' rfl
  rw [if_pos ⟨hexited, rfl, hgap⟩, insertExit, hcode]
  refine .bind (Q := fun _ session'' => session'.insertPending _ = .ok session'')
    (insertPending_triple (fun _ hinsert => hinsert) fun error herror => ?_)
    fun _ => .bind (.step fun session'' hinsert => ?_) fun closed =>
      .pure fun _ hend => hend
  · rw [hok] at herror
    cases herror
  · rw [hok] at hinsert
    cases hinsert
    have hget : (session'.keep (session'.lastPublishedSeq + 1) (.exited
        (session'.lastPublishedSeq + 1) exitCode (some response.sandboxDenied))).pending.get
        (session'.lastPublishedSeq + 1) = some _ := get_keep.trans (if_pos rfl)
    exact publishReady_next hget

/-- A recovery that is not safe publishes an exit in the place of output. -/
theorem recoverEvents_misplaced (h : Describes trace response) (hrunning : Running trace session)
    (hsettled : Settled session) (hwrong : ¬ Safe trace session response) :
    OutputAt trace (session.lastPublishedSeq + 1) ∧ ∃ exitCode,
      misplaced session response exitCode <+: ((recoverEvents response).exec session).2.events := by
  rw [Safe, Placed] at hwrong
  push Not at hwrong
  obtain ⟨hlive, hlast, hexited, hunknown, hchunks, output, houtput, hseq, hmissing⟩ := hwrong
  refine ⟨⟨output, (mem_outputs_take.mp houtput).1, hseq⟩, ?_⟩
  obtain ⟨exitSeq, hexitLe, hexit⟩ := h.exited_iff.mp hexited
  obtain ⟨exitCode, hcode, -⟩ := h.exists_exitCode hexit hexitLe (some response.sandboxDenied)
  refine ⟨exitCode, ?_⟩
  obtain ⟨first, rest, hfirst⟩ := exists_cons_of_ne_nil hchunks
  have hgap : session.lastPublishedSeq + 1 < first.seq := by
    by_contra hle
    exact hmissing (h.mem_chunks_of_le (hfirst ▸ mem_cons_self) houtput (by omega))
  obtain ⟨-, -, -, hpending⟩ :=
    markPendingExit_spec hrunning (targetSeq response) response.sandboxDenied
  rw [exitKnown_iff hrunning hlast, not_or, Bool.not_eq_true, ← hpending] at hunknown
  have hkept := kept_events (misplaced session response exitCode)
  have hmem : first ∈ response.chunks := hfirst ▸ mem_cons_self
  have hrecover : Triple (· = session) (recoverTo response (targetSeq response))
      (fun _ session' => misplaced session response exitCode <+: session'.events)
      (fun _ session' => misplaced session response exitCode <+: session'.events) := by
    rw [recoverTo, hfirst]
    refine .read ?_
    rintro session' rfl
    rw [hunknown.1]
    refine .bind (Q := fun exitPending session'' => exitPending = false ∧ session'' = session')
      (.step ?_) fun exitPending => .of_pure ?_
    · rintro session'' rfl
      -- there is nothing to mark
      rw [markPendingExit] at hunknown ⊢
      split at hunknown
      · exact absurd rfl hunknown.2
      · exact ⟨rfl, rfl⟩
    · rintro rfl
      refine .bind (checkClose_triple h ?_) fun _ => ?_
      · rintro session'' rfl
        exact hrunning
      rw [foldlM_cons, recoverChunk, if_neg (Nat.not_lt_of_le (h.mem_events hmem).2.2)]
      -- the first gap is filled with the exit, and nothing takes it back
      refine .bind (.bind (.bind (recoverGap_misplaced hcode hexited hgap hsettled) fun recovered =>
          hkept.recoverOutput recovered first) fun recovered =>
        .foldlM (fun recovered chunk _ => hkept.recoverChunk _ _ recovered chunk) recovered)
        fun recovered => ?_
      exact .bind (hkept.recoverClosed _ _) fun _ => .bind (hkept.recoverExit _ _ _)
        fun _ => .bind hkept.publishReady fun _ => .pure fun _ hend => hend
  refine Triple.state (P := (· = session))
    (I := fun session' => misplaced session response exitCode <+: session'.events) ?_ rfl
  rw [recoverEvents, h.failure]
  refine .read ?_
  rintro session' rfl
  split_ifs with hskip
  · exact absurd hskip (not_or.mpr ⟨hlive, Nat.not_le_of_lt hlast⟩)
  · exact .bind hrecover fun _ => .bind (.update fun _ hstarts => hstarts)
      fun _ => .pure fun _ hend => hend

/-- A recovery after which the beginning of the trace is published was safe. -/
theorem safe_of_isPrefix (h : Describes trace response) (hsession : InOrder trace session)
    (hstarts : (published ((recoverEvents response).exec session).2).map unflagged <+:
      trace.events.map unflagged) : Safe trace session response := by
  by_contra hwrong
  rcases hsession with ⟨hrunning, hsettled⟩ | hfailed
  · obtain ⟨⟨chunk, hchunk, hseq⟩, exitCode, later, hlater⟩ :=
      recoverEvents_misplaced h hrunning hsettled hwrong
    have hnone : ∀ event ∈ misplaced session response exitCode, (!event.isFailed) = true := by
      intro event hevent
      rcases mem_append.mp hevent with hpast | hnew
      · rw [hrunning.isFailed_eq_false event hpast]
        rfl
      · rw [mem_singleton.mp hnew]
        rfl
    rw [published, ← hlater, takeWhile_append_of_pos hnone] at hstarts
    have hall := ((prefix_append _ _).map unflagged).trans hstarts
    obtain ⟨-, hget⟩ := trace.isTrace.getElem?_of_seq hchunk (congrArg some hseq)
    rw [Nat.add_sub_cancel] at hget
    -- the place of the output has an exit
    have hplace : ((misplaced session response exitCode).map unflagged)[session.lastPublishedSeq]? =
        some (.exited (session.lastPublishedSeq + 1) exitCode none) := by
      rw [misplaced, map_append, getElem?_append_right]
      · rw [length_map, hrunning.length_events, Nat.sub_self]
        rfl
      · rw [length_map, hrunning.length_events]
    obtain ⟨later, hlater⟩ := hall
    have hlength := (List.getElem?_eq_some_iff.mp hplace).1
    rw [← getElem?_append_left hlength, hlater, getElem?_map, hget] at hplace
    cases hplace
  · exact hwrong fun hlive => absurd (.inl hfailed.failure) hlive

/-! ## Runs -/

/-- What a session should do along a run: what it publishes before a failure is the beginning of the
trace; its pending bytes are those of the pending events; and a recovery that misses no output
succeeds, as long as the session has not failed, and everything up to its target is published. -/
structure Faithful (trace : Trace) (steps : List ClientStep) : Prop where
  published : ∀ past, past <+: steps →
    (published (afterSteps past)).map unflagged <+: trace.events.map unflagged
  pendingBytes : ∀ past, past <+: steps → (afterSteps past).pendingBytes =
    (afterSteps past).pending.total fun entry => pendingProcessEventBytes entry.2
  recovers : ∀ past response, past ++ [.recovered response] <+: steps →
    (afterSteps past).failure = none →
    Complete trace response (afterSteps past).lastPublishedSeq →
    (∃ closed, ((recoverEvents response).exec (afterSteps past)).1 = .ok closed) ∧
      targetSeq response ≤ (ExecServer.published (afterSteps (past ++ [.recovered response]))).length

theorem InOrder.step (h : InOrder trace session) {next : ClientStep} (hnext : Possible trace next)
    (hsafe : ∀ response, next = .recovered response → Safe trace session response) :
    InOrder trace (session.step next) := by
  cases next with
  | notified event => exact (notify_triple hnext).state h
  | recovered response =>
    exact Triple.state ((recoverEvents_triple hnext h (hsafe response rfl)).weaken
      (fun _ hsame => hsame) (fun _ _ hend => hend.1) fun _ _ hend => hend.1) rfl
  | failed message => exact inOrder_setFailure h message

/-- A session is in order along a run if a recovery of a session in order is safe there. -/
theorem inOrder_afterSteps {steps past : List ClientStep}
    (hpossible : ∀ next ∈ steps, Possible trace next)
    (hsafe : ∀ past response, past ++ [.recovered response] <+: steps →
      InOrder trace (afterSteps past) → Safe trace (afterSteps past) response)
    (hpast : past <+: steps) : InOrder trace (afterSteps past) := by
  induction past using List.reverseRecOn with
  | nil => exact .inl ⟨.new trace, .new⟩
  | append_singleton past next ih =>
    have hbefore := ih ((prefix_append _ _).trans hpast)
    rw [afterSteps_concat]
    refine hbefore.step (hpossible next (hpast.subset (by simp))) ?_
    rintro response rfl
    exact hsafe past response hpast hbefore

/-- A session is faithful along a run if and only if none of its recoveries takes output that the
response misses for the exit. -/
theorem faithful_iff_safe (trace : Trace) (steps : List ClientStep)
    (hpossible : ∀ next ∈ steps, Possible trace next) :
    Faithful trace steps ↔ ∀ past response, past ++ [.recovered response] <+: steps →
      Safe trace (afterSteps past) response := by
  have hdescribes : ∀ past response, past ++ [.recovered response] <+: steps →
      Describes trace response := fun past response hpast =>
    hpossible (.recovered response) (hpast.subset (by simp))
  constructor
  · intro hfaithful
    have hrecovered : ∀ past response, past ++ [.recovered response] <+: steps →
        InOrder trace (afterSteps past) → Safe trace (afterSteps past) response := by
      intro past response hpast horder
      have hstarts := hfaithful.published _ hpast
      rw [afterSteps_concat] at hstarts
      exact safe_of_isPrefix (hdescribes past response hpast) horder hstarts
    intro past response hpast
    have hbefore : past <+: steps := (prefix_append _ _).trans hpast
    exact hrecovered past response hpast (inOrder_afterSteps hpossible hrecovered hbefore)
  · intro hsafe
    have horder : ∀ past, past <+: steps → InOrder trace (afterSteps past) := fun _ =>
      inOrder_afterSteps hpossible fun past response hpast _ => hsafe past response hpast
    refine ⟨fun past hpast => (horder past hpast).published_isPrefix,
      fun past hpast => (horder past hpast).pendingBytes,
      fun past response hpast hnone hcomplete => ?_⟩
    rw [afterSteps_concat, SessionState.step]
    have hend := recoverEvents_triple (hdescribes past response hpast)
      (horder past ((prefix_append _ _).trans hpast)) (hsafe past response hpast) _ rfl
    rcases hrun : (recoverEvents response).exec (afterSteps past) with ⟨error | closed, session'⟩
    · rw [hrun] at hend
      exact absurd hcomplete hend.2
    · rw [hrun] at hend
      obtain ⟨hend, hreach⟩ := hend
      obtain ⟨hnone', htarget⟩ := hreach hnone
      refine ⟨⟨closed, rfl⟩, ?_⟩
      rcases hend with ⟨hrunning, -⟩ | hfailed
      · rwa [hrunning.published_eq, hrunning.length_events]
      · have := hfailed.failure
        rw [hnone'] at this
        cases this

/-! ## Output that is no longer retained -/

/-- Two chunks of output and the exit. -/
def briefTrace : Trace where
  events := [.output ⟨1, .stdout, [1]⟩, .output ⟨2, .stdout, [2]⟩, .exited 3 0 (some false)]
  isTrace := (((IsTrace.nil.concat rfl (by decide) (by decide) (by decide)).concat rfl (by decide)
    (by decide) (by decide)).concat rfl (by decide) (by decide) (by decide))

/-- The first chunk is no longer retained, and its number is taken for that of the exit. -/
theorem evicted_output_published_as_exit :
    let response : ReadResponse := ⟨[⟨2, .stdout, [2]⟩], 4, true, some 0, false, none, false⟩
    Describes briefTrace response ∧
      (recoverProcess "p" response .new).events.take 2 =
        [.exited 1 0 (some false), .output ⟨2, .stdout, [2]⟩] ∧
      ¬ (published (recoverProcess "p" response .new)).map unflagged <+:
        briefTrace.events.map unflagged := by
  refine ⟨⟨by decide, by decide, ?_, ⟨by decide, by decide⟩, by decide, rfl, by decide, rfl⟩,
    by decide, by decide⟩
  exact ⟨[⟨1, .stdout, [1]⟩], rfl⟩

/-- A recovery that has all output finds the exit behind it. -/
theorem brief_trace_recovered :
    Faithful briefTrace [.recovered
      ⟨[⟨1, .stdout, [1]⟩, ⟨2, .stdout, [2]⟩], 4, true, some 0, false, none, false⟩] := by
  refine (faithful_iff_safe briefTrace _ fun next hnext => ?_).mpr fun past response hpast => ?_
  · rw [mem_singleton.mp hnext]
    refine ⟨by decide, by decide, ?_, ⟨by decide, by decide⟩, by decide, rfl, by decide, rfl⟩
    exact suffix_rfl
  · obtain ⟨later, hlater⟩ := hpast
    cases past with
    | nil =>
      cases hlater
      exact fun _ _ _ _ _ => by decide
    | cons first past => simp at hlater

end Codex.ExecServer
