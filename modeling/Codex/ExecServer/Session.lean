import Codex.ExecServer.Process
import Codex.Lib.SortedMap
import Codex.Lib.Triple

/-!
# A session of the client

The client is notified of the events of a process, out of order, and publishes them in order: an event
that is ahead is kept until those before it have come.  After a new connection it reads what it missed
and recovers the events from the response.  The number of the exit is not in the response; it has to
be found from the gap that the other events leave.
-/

namespace Codex.ExecServer

def maxPendingProcessEvents : ℕ := 256

def maxPendingProcessEventBytes : ℕ := 1024 * 1024

/-- The errors of a session, with the messages of the source. -/
inductive SessionError where
  | unsequenced
  | tooManyEntries
  | eventTooLarge
  | tooManyBytes
  | processFailed (message : String)
  | closeConflict (targetSeq : ℕ)
  | exceedsTarget (seq targetSeq : ℕ)
  | missingExitCode
  | gap (targetSeq : ℕ)
  deriving DecidableEq

def SessionError.message : SessionError → String
  | .unsequenced => "cannot reorder an unsequenced process event"
  | .tooManyEntries =>
    s!"process event reorder buffer exceeds {maxPendingProcessEvents} entries"
  | .eventTooLarge => s!"process event exceeds {maxPendingProcessEventBytes} bytes"
  | .tooManyBytes => s!"process event reorder buffer exceeds {maxPendingProcessEventBytes} bytes"
  | .processFailed message => s!"process failed while recovering: {message}"
  | .closeConflict targetSeq =>
    s!"process close sequence {targetSeq} conflicts with recovered output"
  | .exceedsTarget seq targetSeq =>
    s!"recovered process output sequence {seq} exceeds target sequence {targetSeq}"
  | .missingExitCode => "recovering exited process did not include its exit code"
  | .gap targetSeq =>
    s!"process events are no longer retained while recovering through sequence {targetSeq}"

/-- The state of a session, with the fields of its `OrderedSessionEvents`. -/
structure SessionState where
  lastPublishedSeq : ℕ
  exitPublished : Bool
  closedPublished : Bool
  pending : SortedMap ℕ ExecProcessEvent
  pendingBytes : ℕ
  failure : Option String
  /-- All events that were published. -/
  events : List ExecProcessEvent
  /-- The value of `wake_tx`. -/
  wake : ℕ

abbrev SessionM := Prog SessionError SessionState

def pendingProcessEventBytes : ExecProcessEvent → ℕ
  | .output chunk => chunk.length
  | .failed message => message.utf8ByteSize
  | _ => 0

namespace SessionState

def new : SessionState := ⟨0, false, false, .empty, 0, none, [], 0⟩

variable (session : SessionState)

def noteChange (seq : ℕ) : SessionState :=
  { session with wake := max session.wake seq }

/-- An event is kept until those before it are there.  The next one is taken whatever is kept. -/
def insertPending (event : ExecProcessEvent) : Except SessionError SessionState :=
  match event.seq with
  | none => .error .unsequenced
  | some seq =>
    if (session.pending.get seq).isSome then .ok session
    else if seq ≠ session.lastPublishedSeq + 1 ∧
        maxPendingProcessEvents ≤ session.pending.entries.length then .error .tooManyEntries
    else if maxPendingProcessEventBytes < pendingProcessEventBytes event then
      .error .eventTooLarge
    else if seq ≠ session.lastPublishedSeq + 1 ∧ maxPendingProcessEventBytes <
        session.pendingBytes + pendingProcessEventBytes event then .error .tooManyBytes
    else .ok
      { session with
        pending := session.pending.insert seq event
        pendingBytes := session.pendingBytes + pendingProcessEventBytes event }

/-- A round of the loop of `publish_ready`. -/
def publish (event : ExecProcessEvent) : SessionState :=
  { session with
    pending := session.pending.erase (session.lastPublishedSeq + 1)
    pendingBytes := session.pendingBytes - pendingProcessEventBytes event
    lastPublishedSeq := session.lastPublishedSeq + 1
    exitPublished := session.exitPublished || event.isExited
    closedPublished := session.closedPublished || event.isClosed
    events := session.events ++ [event] }

/-- The loop of `publish_ready`, so many rounds at most. -/
def publishRounds : ℕ → SessionState → Bool → Bool × SessionState
  | 0, session, publishedClosed => (publishedClosed, session)
  | rounds + 1, session, publishedClosed =>
    match session.pending.get (session.lastPublishedSeq + 1) with
    | none => (publishedClosed, session)
    | some event =>
      publishRounds rounds (session.publish event) (publishedClosed || event.isClosed)

/-- Every round takes an event out of the pending ones, so that there are not more rounds. -/
def publishReady : Bool × SessionState :=
  publishRounds session.pending.entries.length session false

/-- The first failure ends the session, unless it is closed. -/
def setFailure (message : String) : SessionState :=
  if session.failure.isSome ∨ session.closedPublished then session
  else
    { session with
      failure := some message
      pending := .empty
      pendingBytes := 0
      events := session.events ++ [.failed message]
      wake := session.wake + 1 }

/-- A session that has failed or is closed takes no more events. -/
def Over : Prop := session.failure.isSome ∨ session.closedPublished

instance (session : SessionState) : Decidable session.Over :=
  inferInstanceAs (Decidable (_ ∨ _))

end SessionState

/-! ## Notifications -/

/-- `insert_pending`, as a step of a program. -/
def insertPending (event : ExecProcessEvent) : SessionM Unit := fun session =>
  match session.insertPending event with
  | .ok session' => (.ok (), session')
  | .error error => (.error error, session)

def publishReady : SessionM Bool := Prog.step SessionState.publishReady

def noteChange (seq : ℕ) : SessionM Unit := Prog.update fun session => session.noteChange seq

/-- Publishes the event and those that waited for it, if it is the next one. -/
def publishOrderedEvent (event : ExecProcessEvent) : SessionM Bool :=
  match event.seq with
  | none => do
      Prog.update fun session => { session with events := session.events ++ [event] }
      return false
  | some seq => do
      let session ← Prog.step fun session => (session, session)
      if session.Over ∨ seq ≤ session.lastPublishedSeq then return false
      else do
        insertPending event
        publishReady

/-- A notification of `handle_server_notification`, up to `finish_process_event`. -/
def notify (event : ExecProcessEvent) : SessionM Bool := do
  let publishedClosed ← publishOrderedEvent event
  noteChange (event.seq.getD 0)
  return publishedClosed

/-! ## Recovery -/

/-- The exit that waits to be published, up to the target, learns whether the sandbox denied
something.  Returns whether there is one. -/
def markPendingExit (session : SessionState) (targetSeq : ℕ) (sandboxDenied : Bool) :
    Bool × SessionState :=
  match session.pending.entries.find? fun entry => entry.1 ≤ targetSeq ∧ entry.2.isExited with
  | some (key, .exited seq exitCode denied) =>
    let marked := .exited seq exitCode (some (denied.getD false || sandboxDenied))
    (true, { session with pending := session.pending.insert key marked })
  | _ => (false, session)

variable (response : ReadResponse)

/-- The close is not where the response or a notification has another event. -/
def checkClose (targetSeq : ℕ) : SessionM Unit := do
  let session ← Prog.step fun session => (session, session)
  if response.closed ∧ ((session.pending.get targetSeq).any (fun event => !event.isClosed) ∨
      response.chunks.any fun chunk => chunk.seq = targetSeq) then
    throw (.closeConflict targetSeq)

def insertExit (seq : ℕ) : SessionM Unit :=
  match response.exitCode with
  | none => throw .missingExitCode
  | some exitCode => insertPending (.exited seq exitCode (some response.sandboxDenied))

/-- What the loop over the chunks carries along: whether the exit is known, and whether the close
was published. -/
structure Recovered where
  exitKnown : Bool
  publishedClosed : Bool

/-- A gap before a chunk is taken for the exit, if that is not known yet. -/
def recoverGap (recovered : Recovered) (chunk : ProcessOutputChunk) : SessionM Recovered := do
  let session ← Prog.step fun session => (session, session)
  if response.exited ∧ !recovered.exitKnown ∧ session.lastPublishedSeq + 1 < chunk.seq then do
    insertExit response (session.lastPublishedSeq + 1)
    let closed ← publishReady
    return ⟨true, recovered.publishedClosed || closed⟩
  else return recovered

def recoverOutput (recovered : Recovered) (chunk : ProcessOutputChunk) : SessionM Recovered := do
  let session ← Prog.step fun session => (session, session)
  if session.lastPublishedSeq < chunk.seq then do
    insertPending (.output chunk)
    let closed ← publishReady
    return { recovered with publishedClosed := recovered.publishedClosed || closed }
  else return recovered

/-- A round of the loop over the chunks. -/
def recoverChunk (targetSeq : ℕ) (recovered : Recovered) (chunk : ProcessOutputChunk) :
    SessionM Recovered := do
  if targetSeq < chunk.seq then throw (.exceedsTarget chunk.seq targetSeq)
  else do
    let recovered ← recoverGap response recovered chunk
    recoverOutput recovered chunk

def recoverClosed (targetSeq : ℕ) : SessionM Unit := do
  let session ← Prog.step fun session => (session, session)
  if response.closed ∧ !session.closedPublished ∧
      !(session.pending.get targetSeq).any ExecProcessEvent.isClosed then
    insertPending (.closed targetSeq)

namespace SessionState

/-- The numbers up to the target that wait to be published. -/
def retainedSeqs (session : SessionState) (targetSeq : ℕ) : List ℕ :=
  (session.pending.entries.map Prod.fst).filter fun seq =>
    session.lastPublishedSeq < seq ∧ seq ≤ targetSeq

def missingCount (session : SessionState) (targetSeq : ℕ) : ℕ :=
  targetSeq - session.lastPublishedSeq - (session.retainedSeqs targetSeq).length

end SessionState

/-- The loop of `first_missing_seq`. -/
def firstGap : ℕ → List ℕ → ℕ
  | expected, [] => expected
  | expected, seq :: seqs => if seq ≠ expected then expected else firstGap (expected + 1) seqs

def firstMissingSeq (session : SessionState) (targetSeq : ℕ) : ℕ :=
  firstGap (session.lastPublishedSeq + 1) (session.retainedSeqs targetSeq)

/-- The exit, if it is not known yet, is the one event that is missing. -/
def recoverExit (targetSeq : ℕ) (exitKnown : Bool) : SessionM Unit := do
  let session ← Prog.step fun session => (session, session)
  if response.exited ∧ !exitKnown then
    if session.missingCount targetSeq ≠ 1 then throw (.gap targetSeq)
    else insertExit response (firstMissingSeq session targetSeq)
  else if session.missingCount targetSeq ≠ 0 then throw (.gap targetSeq)

/-- What `recover_events` does with the events locked, for a target that is not published yet. -/
def recoverTo (targetSeq : ℕ) : SessionM Bool := do
  let session ← Prog.step fun session => (session, session)
  let exitPending ← Prog.step fun session =>
    markPendingExit session targetSeq response.sandboxDenied
  checkClose response targetSeq
  let recovered ← response.chunks.foldlM (recoverChunk response targetSeq)
    ⟨session.exitPublished || exitPending, false⟩
  recoverClosed response targetSeq
  recoverExit response targetSeq recovered.exitKnown
  let closed ← publishReady
  return recovered.publishedClosed || closed

/-- What a read response tells of the events up to its `next_seq`. -/
def recoverEvents : SessionM Bool :=
  match response.failure with
  | some message => throw (.processFailed message)
  | none => do
      let targetSeq := response.nextSeq - 1
      let session ← Prog.step fun session => (session, session)
      if session.Over ∨ targetSeq ≤ session.lastPublishedSeq then return false
      else do
        let publishedClosed ← recoverTo response targetSeq
        noteChange targetSeq
        return publishedClosed

end Codex.ExecServer
