import Codex.Lib.Budget
import Codex.Lib.Run
import Mathlib.Logic.Function.Basic

/-!
# A process on the server

A process numbers its events 1, 2, 3, ...: the chunks of its output streams, its exit, and, when all
streams have ended after the exit, the close.  The newest output is retained for clients that read it
later; the exit is known from its code only, a read does not tell its number.

Three tasks work on a process: one for each of its two streams, which receives chunks until the stream
ends, and one that waits for the exit.  Each locks the process for a section at a time, and the last
section of each is the check whether the process is to be closed (`maybeEmitClosed`).  Any sections of
other tasks and any reads may come in between.

* Every run has a trace of the shape described above (`coherent_run`), and what is retained of the
  output is always its longest end within the limits.
* Where all three tasks have done their work, the process is closed or a task has its check ahead
  (`Attended.due`).

A read is then described at the very moment it is made (`execRead_describes`).
-/

namespace Codex.ExecServer

open Budget List

abbrev Bytes := List UInt8

inductive ExecOutputStream where
  | stdout
  | stderr
  | pty
  deriving DecidableEq

structure ProcessOutputChunk where
  seq : ℕ
  stream : ExecOutputStream
  chunk : Bytes
  deriving DecidableEq

inductive ExecProcessEvent where
  | output (chunk : ProcessOutputChunk)
  | exited (seq : ℕ) (exitCode : ℤ) (sandboxDenied : Option Bool)
  | closed (seq : ℕ)
  | failed (message : String)
  deriving DecidableEq

namespace ExecProcessEvent

/-- A failure comes from the client and has no number. -/
def seq : ExecProcessEvent → Option ℕ
  | .output chunk => some chunk.seq
  | .exited seq _ _ => some seq
  | .closed seq => some seq
  | .failed _ => none

def output? : ExecProcessEvent → Option ProcessOutputChunk
  | .output chunk => some chunk
  | _ => none

def exitCode? : ExecProcessEvent → Option ℤ
  | .exited _ exitCode _ => some exitCode
  | _ => none

def isExited (event : ExecProcessEvent) : Bool := event.exitCode?.isSome

def isClosed : ExecProcessEvent → Bool
  | .closed _ => true
  | _ => false

end ExecProcessEvent

structure ReadResponse where
  chunks : List ProcessOutputChunk
  nextSeq : ℕ
  exited : Bool
  exitCode : Option ℤ
  closed : Bool
  failure : Option String
  sandboxDenied : Bool

/-! ## Traces -/

/-- The events of a process so far: numbered from 1, one exit at most, and nothing after the close,
which comes after the exit. -/
structure IsTrace (events : List ExecProcessEvent) : Prop where
  numbered : ∀ n event, events[n]? = some event → event.seq = some (n + 1)
  exit_unique : ∀ event ∈ events, ∀ other ∈ events, event.isExited → other.isExited → event = other
  closed_last : ∀ event ∈ events, event.isClosed → events.getLast? = some event
  exited_of_closed : ∀ event ∈ events, event.isClosed → ∃ exit ∈ events, exit.isExited

structure Trace where
  events : List ExecProcessEvent
  isTrace : IsTrace events

open ExecProcessEvent

def outputs (events : List ExecProcessEvent) : List ProcessOutputChunk :=
  events.filterMap output?

def retainedOutputBytesPerProcess : ℕ := 1024 * 1024

def retainedOutputChunksPerProcess : ℕ := 50000

def ProcessOutputChunk.length (chunk : ProcessOutputChunk) : ℕ := chunk.chunk.length

/-- The response describes the process at the moment its next number tells.  The oldest output may be
missing, at least so much that the rest can be retained. -/
structure Describes (trace : Trace) (response : ReadResponse) : Prop where
  nextSeq_pos : 0 < response.nextSeq
  moment : response.nextSeq - 1 ≤ trace.events.length
  chunks : response.chunks <:+ outputs (trace.events.take (response.nextSeq - 1))
  retained : Fits ProcessOutputChunk.length retainedOutputChunksPerProcess
    retainedOutputBytesPerProcess response.chunks
  exitCode : response.exitCode = (trace.events.take (response.nextSeq - 1)).findSome? exitCode?
  exited : response.exited = response.exitCode.isSome
  closed : response.closed = (trace.events.take (response.nextSeq - 1)).any isClosed
  failure : response.failure = none

section Traces

variable {events : List ExecProcessEvent}

theorem IsTrace.nil : IsTrace [] where
  numbered := fun n event h => by simp at h
  exit_unique := fun event h => by cases h
  closed_last := fun event h => by cases h
  exited_of_closed := fun event h => by cases h

/-- The next event of a process that is not closed. -/
theorem IsTrace.concat (h : IsTrace events) {event : ExecProcessEvent}
    (hseq : event.seq = some (events.length + 1)) (hopen : ∀ other ∈ events, ¬ other.isClosed)
    (hexit : event.isExited → ∀ other ∈ events, ¬ other.isExited)
    (hclosed : event.isClosed → ∃ exit ∈ events, exit.isExited) : IsTrace (events ++ [event]) where
  numbered := by
    intro n other hget
    rcases Nat.lt_trichotomy n events.length with hlt | rfl | hgt
    · rw [getElem?_append_left hlt] at hget
      exact h.numbered n other hget
    · rw [getElem?_concat_length] at hget
      cases hget
      exact hseq
    · rw [getElem?_eq_none (by simp; omega)] at hget
      cases hget
  exit_unique := by
    intro first hfirst second hsecond hexited hexited'
    rcases mem_append.mp hfirst with hfirst | hfirst <;>
      rcases mem_append.mp hsecond with hsecond | hsecond
    · exact h.exit_unique first hfirst second hsecond hexited hexited'
    · cases mem_singleton.mp hsecond
      exact absurd hexited (hexit hexited' first hfirst)
    · cases mem_singleton.mp hfirst
      exact absurd hexited' (hexit hexited second hsecond)
    · rw [mem_singleton.mp hfirst, mem_singleton.mp hsecond]
  closed_last := by
    intro other hother hisClosed
    rcases mem_append.mp hother with hpast | hnew
    · exact absurd hisClosed (hopen other hpast)
    · rw [mem_singleton.mp hnew, getLast?_concat]
  exited_of_closed := by
    intro other hother hisClosed
    rcases mem_append.mp hother with hpast | hnew
    · exact absurd hisClosed (hopen other hpast)
    · cases mem_singleton.mp hnew
      obtain ⟨exit, hexit, hexited⟩ := hclosed hisClosed
      exact ⟨exit, mem_append_left _ hexit, hexited⟩

theorem mem_outputs {chunk : ProcessOutputChunk} :
    chunk ∈ outputs events ↔ .output chunk ∈ events := by
  rw [outputs, mem_filterMap]
  constructor
  · rintro ⟨event, hevent, houtput⟩
    cases event <;> cases houtput
    exact hevent
  · exact fun h => ⟨_, h, rfl⟩

theorem outputs_concat (event : ExecProcessEvent) :
    outputs (events ++ [event]) = outputs events ++ event.output?.toList := by
  rw [outputs, outputs]
  cases h : event.output? <;> simp [h]

/-- The place of an event is its number. -/
theorem IsTrace.getElem?_of_seq (h : IsTrace events) {event : ExecProcessEvent} {seq : ℕ}
    (hevent : event ∈ events) (hseq : event.seq = some seq) :
    0 < seq ∧ events[seq - 1]? = some event := by
  obtain ⟨n, hn⟩ := mem_iff_getElem?.mp hevent
  have hplace := h.numbered n event hn
  rw [hseq] at hplace
  cases hplace
  exact ⟨Nat.succ_pos n, hn⟩

theorem IsTrace.pairwise_outputs (h : IsTrace events) :
    (outputs events).Pairwise fun chunk later => chunk.seq < later.seq := by
  rw [outputs, pairwise_filterMap, pairwise_iff_getElem]
  intro i j hi hj hlt chunk hchunk later hlater
  have hfirst := h.numbered i _ (getElem?_eq_getElem hi)
  have hsecond := h.numbered j _ (getElem?_eq_getElem hj)
  cases hevent : events[i] with
  | output first =>
    cases hevent' : events[j] with
    | output second =>
      rw [hevent] at hchunk hfirst
      rw [hevent'] at hlater hsecond
      cases hchunk
      cases hlater
      rw [Option.some.inj hfirst, Option.some.inj hsecond]
      omega
    | _ => rw [hevent'] at hlater; cases hlater
  | _ => rw [hevent] at hchunk; cases hchunk

end Traces

/-- What comes after a number is the end of a list with growing numbers. -/
theorem filter_isSuffix {chunks : List ProcessOutputChunk}
    (h : chunks.Pairwise fun chunk later => chunk.seq < later.seq) (afterSeq : ℕ) :
    (chunks.filter fun chunk => afterSeq < chunk.seq) <:+ chunks := by
  induction chunks with
  | nil => exact suffix_rfl
  | cons chunk later ih =>
    obtain ⟨hchunk, hlater⟩ := pairwise_cons.mp h
    by_cases hseq : afterSeq < chunk.seq
    · have hall : ∀ other ∈ chunk :: later, afterSeq < other.seq :=
        forall_mem_cons.mpr ⟨hseq, fun other hother => Nat.lt_trans hseq (hchunk other hother)⟩
      have hself : (chunk :: later).filter (afterSeq < ·.seq) = _ :=
        filter_eq_self.mpr (by simpa using hall)
      simp only [hself, suffix_rfl]
    · rw [filter_cons_of_neg (by simpa using hseq)]
      exact (ih hlater).trans (suffix_cons chunk later)

/-! ## The process -/

/-- The tasks of a process: one for each stream, and one that waits for the exit. -/
inductive ProcessTask where
  | stream (stderr : Bool)
  | exit
  deriving DecidableEq

/-- A task is at its work, has done it and is to check for the close, or has come to its end. -/
inductive TaskPhase where
  | running
  | checking
  | done
  deriving DecidableEq

structure RunningProcess where
  output : List ProcessOutputChunk
  retainedBytes : ℕ
  nextSeq : ℕ
  exitCode : Option ℤ
  openStreams : ℕ
  closed : Bool
  sandboxDenied : Bool
  /-- All events that were published. -/
  events : List ExecProcessEvent
  /-- Where the tasks of the process stand. -/
  phase : ProcessTask → TaskPhase

namespace RunningProcess

def start : RunningProcess := ⟨[], 0, 1, none, 2, false, false, [], fun _ => .running⟩

/-- The `while` of `stream_output`. -/
def evict : List ProcessOutputChunk → ℕ → List ProcessOutputChunk × ℕ
  | [], retainedBytes => ([], retainedBytes)
  | evicted :: output, retainedBytes =>
    if retainedOutputBytesPerProcess < retainedBytes ∨
        retainedOutputChunksPerProcess < (evicted :: output).length then
      evict output (retainedBytes - evicted.length)
    else (evicted :: output, retainedBytes)

variable (process : RunningProcess)

/-- A round of `stream_output`. -/
def streamOutput (stream : ExecOutputStream) (chunk : Bytes) : RunningProcess :=
  let output : ProcessOutputChunk := ⟨process.nextSeq, stream, chunk⟩
  let kept := evict (process.output ++ [output]) (process.retainedBytes + chunk.length)
  { process with
    output := kept.1
    retainedBytes := kept.2
    nextSeq := process.nextSeq + 1
    events := process.events ++ [.output output] }

/-- The section of `watch_exit` that reports the exit, with the verdict on whether the sandbox denied
something. -/
def watchExit (exitCode : ℤ) (denied : Bool) : RunningProcess :=
  { process with
    nextSeq := process.nextSeq + 1
    exitCode := some exitCode
    sandboxDenied := denied
    events := process.events ++ [.exited process.nextSeq exitCode (some denied)] }

/-- The first section of `finish_output_stream`; the second one is `maybe_emit_closed`. -/
def finishOutputStream : RunningProcess :=
  { process with openStreams := process.openStreams - 1 }

/-- The close comes once, after the exit and the end of both streams. -/
def maybeEmitClosed : RunningProcess :=
  if process.closed ∨ process.openStreams ≠ 0 ∨ process.exitCode = none then process
  else
    { process with
      closed := true
      nextSeq := process.nextSeq + 1
      events := process.events ++ [.closed process.nextSeq] }

theorem maybeEmitClosed_spec :
    process.maybeEmitClosed.phase = process.phase ∧
      process.maybeEmitClosed.openStreams = process.openStreams ∧
      process.maybeEmitClosed.exitCode = process.exitCode ∧
      (process.openStreams = 0 → process.exitCode ≠ none → process.maybeEmitClosed.closed = true) := by
  rw [maybeEmitClosed]
  split_ifs with hkeep
  · refine ⟨rfl, rfl, rfl, fun hends hexited => ?_⟩
    exact hkeep.resolve_right (not_or.mpr ⟨not_not.mpr hends, hexited⟩)
  · exact ⟨rfl, rfl, rfl, fun _ _ => rfl⟩

/-- The loop of `exec_read` over the retained chunks, with the bytes so far. -/
def readChunks (maxBytes : ℕ) : List ProcessOutputChunk → List ProcessOutputChunk → ℕ → ℕ →
    List ProcessOutputChunk × ℕ
  | [], chunks, _, nextSeq => (chunks, nextSeq)
  | retained :: rest, chunks, totalBytes, nextSeq =>
    if chunks ≠ [] ∧ maxBytes < totalBytes + retained.length then (chunks, nextSeq)
    else if maxBytes ≤ totalBytes + retained.length then
      (chunks ++ [retained], retained.seq + 1)
    else readChunks maxBytes rest (chunks ++ [retained]) (totalBytes + retained.length)
      (retained.seq + 1)

/-- The response of `exec_read`.  `usize::MAX` bytes, the default, are never reached. -/
def execRead (afterSeq : Option ℕ) (maxBytes : Option ℕ) : ReadResponse :=
  let retained := process.output.filter fun chunk => afterSeq.getD 0 < chunk.seq
  let read := match maxBytes with
    | some maxBytes => readChunks maxBytes retained [] 0 process.nextSeq
    | none => (retained, process.nextSeq)
  ⟨read.1, read.2, process.exitCode.isSome, process.exitCode, process.closed, none,
    process.sandboxDenied⟩

/-- The task goes on to the phase. -/
def moveTo (task : ProcessTask) (phase : TaskPhase) : RunningProcess :=
  { process with phase := Function.update process.phase task phase }

@[simp] theorem phase_moveTo (task other : ProcessTask) (phase : TaskPhase) :
    (process.moveTo task phase).phase other = if other = task then phase else process.phase other :=
  Function.update_apply ..

/-- The sections of the tasks in which the process is locked.  Both streams of a terminal are named
`pty`, so that the name comes with the chunk. -/
inductive Section where
  | received (stderr : Bool) (stream : ExecOutputStream) (chunk : Bytes)
  | streamFinished (stderr : Bool)
  | exited (exitCode : ℤ) (denied : Bool)
  | checked (task : ProcessTask)
  deriving DecidableEq

/-- The section in which a task has done its work. -/
def Section.ends (task : ProcessTask) : Section → Bool
  | .streamFinished stderr => task = .stream stderr
  | .exited _ _ => task = .exit
  | _ => false

/-- A task takes its sections in turn: `stream_output` receives chunks until `finish_output_stream`,
`watch_exit` reports the exit, and then both run `maybe_emit_closed`.  A section that is not the next
one of its task does not take place. -/
def step : Section → RunningProcess
  | .received stderr stream chunk =>
    if process.phase (.stream stderr) = .running then process.streamOutput stream chunk else process
  | .streamFinished stderr =>
    if process.phase (.stream stderr) = .running then
      process.finishOutputStream.moveTo (.stream stderr) .checking
    else process
  | .exited exitCode denied =>
    if process.phase .exit = .running then (process.watchExit exitCode denied).moveTo .exit .checking
    else process
  | .checked task =>
    if process.phase task = .checking then process.maybeEmitClosed.moveTo task .done else process

/-! ## The trace of a run -/

/-- What is retained of the output: the longest end of it within the limits. -/
abbrev Retained : List ProcessOutputChunk → List ProcessOutputChunk → Prop :=
  IsLongestEnd ProcessOutputChunk.length retainedOutputChunksPerProcess retainedOutputBytesPerProcess

theorem evict_spec (output : List ProcessOutputChunk) :
    let kept := evict output (total ProcessOutputChunk.length output)
    Retained output kept.1 ∧ kept.2 = total ProcessOutputChunk.length kept.1 := by
  induction output with
  | nil => exact ⟨.of_fits ⟨Nat.zero_le _, Nat.zero_le _⟩, rfl⟩
  | cons evicted output ih =>
    rw [evict]
    split_ifs with hover
    · rw [total_cons, Nat.add_sub_cancel_left]
      obtain ⟨⟨hsuffix, hfits, hlongest⟩, hbytes⟩ := ih
      refine ⟨⟨hsuffix.trans (suffix_cons evicted output), hfits, fun other hother hfits => ?_⟩, hbytes⟩
      refine hlongest other ((suffix_cons_iff.mp hother).resolve_left ?_) hfits
      rintro rfl
      exact hover.elim (Nat.not_lt.mpr hfits.2) (Nat.not_lt.mpr hfits.1)
    · rw [not_or, Nat.not_lt, Nat.not_lt] at hover
      exact ⟨.of_fits ⟨hover.2, hover.1⟩, rfl⟩

/-- What holds of a process at every moment. -/
structure Coherent (process : RunningProcess) : Prop where
  isTrace : IsTrace process.events
  nextSeq : process.nextSeq = process.events.length + 1
  output : Retained (outputs process.events) process.output
  retainedBytes : process.retainedBytes = total ProcessOutputChunk.length process.output
  exitCode : process.exitCode = process.events.findSome? exitCode?
  closed : process.closed = process.events.any isClosed
  finished : process.closed → process.openStreams = 0 ∧ process.exitCode ≠ none

/-- How the process and the phases of its tasks belong together. -/
structure Attended (process : RunningProcess) : Prop where
  openStreams : process.openStreams =
    [false, true].countP fun stderr => process.phase (.stream stderr) = .running
  exitCode : process.exitCode = none ↔ process.phase .exit = .running
  due : process.openStreams = 0 → process.exitCode ≠ none →
    process.closed = true ∨ ∃ task, process.phase task = .checking

variable {process : RunningProcess}

theorem Coherent.start : Coherent start :=
  ⟨.nil, rfl, .of_fits ⟨Nat.zero_le _, Nat.zero_le _⟩, rfl, rfl, rfl, fun h => by cases h⟩

theorem Attended.start : Attended start := ⟨rfl, iff_of_true rfl rfl, fun h => by cases h⟩

section

variable (h : Coherent process)
include h

theorem Coherent.open (hopen : process.closed = false) :
    ∀ event ∈ process.events, ¬ event.isClosed := by
  have hany := h.closed.symm.trans hopen
  rw [any_eq_false] at hany
  exact hany

theorem Coherent.streamOutput (hstreams : process.openStreams ≠ 0) (stream : ExecOutputStream)
    (chunk : Bytes) : Coherent (process.streamOutput stream chunk) := by
  have hopen : process.closed = false := by
    rw [Bool.eq_false_iff]
    exact fun hclosed => hstreams (h.finished hclosed).1
  have htotal : process.retainedBytes + chunk.length =
      total ProcessOutputChunk.length (process.output ++ [⟨process.nextSeq, stream, chunk⟩]) := by
    rw [total_append, h.retainedBytes]
    rfl
  obtain ⟨hkept, hbytes⟩ := evict_spec (process.output ++ [⟨process.nextSeq, stream, chunk⟩])
  rw [← htotal] at hkept hbytes
  refine ⟨?_, ?_, ?_, hbytes, ?_, ?_, fun hclosed => ?_⟩
  · refine h.isTrace.concat (congrArg some h.nextSeq) (h.open hopen) ?_ ?_
    · exact fun hexited => by cases hexited
    · exact fun hclosed => by cases hclosed
  · simp [RunningProcess.streamOutput, h.nextSeq]
  · simp only [RunningProcess.streamOutput]
    rw [outputs_concat]
    exact h.output.concat hkept
  · simp [RunningProcess.streamOutput, h.exitCode, exitCode?]
  · simp [RunningProcess.streamOutput, h.closed, isClosed]
  · rw [show (process.streamOutput stream chunk).closed = process.closed from rfl, hopen] at hclosed
    cases hclosed

theorem Coherent.watchExit (hrunning : process.exitCode = none) (exitCode : ℤ) (denied : Bool) :
    Coherent (process.watchExit exitCode denied) := by
  have hopen : process.closed = false := by
    rw [Bool.eq_false_iff]
    exact fun hclosed => (h.finished hclosed).2 hrunning
  have hnone : ∀ event ∈ process.events, ¬ event.isExited := by
    intro event hevent hexited
    have hcode := findSome?_eq_none_iff.mp (h.exitCode.symm.trans hrunning) event hevent
    rw [isExited, hcode] at hexited
    cases hexited
  refine ⟨?_, ?_, ?_, h.retainedBytes, ?_, ?_, fun hclosed => ?_⟩
  · refine h.isTrace.concat (congrArg some h.nextSeq) (h.open hopen) (fun _ => hnone) ?_
    exact fun hclosed => by cases hclosed
  · simp [RunningProcess.watchExit, h.nextSeq]
  · simpa [RunningProcess.watchExit, outputs_concat, output?] using h.output
  · simp [RunningProcess.watchExit, exitCode?, ← h.exitCode, hrunning]
  · simp [RunningProcess.watchExit, h.closed, isClosed]
  · rw [show (process.watchExit exitCode denied).closed = process.closed from rfl, hopen] at hclosed
    cases hclosed

theorem Coherent.maybeEmitClosed : Coherent process.maybeEmitClosed := by
  rw [RunningProcess.maybeEmitClosed]
  split_ifs with hkeep
  · exact h
  · rw [not_or, not_or, Bool.not_eq_true, not_not] at hkeep
    obtain ⟨hopen, hstreams, hexited⟩ := hkeep
    obtain ⟨exitCode, hcode⟩ := Option.ne_none_iff_exists'.mp hexited
    obtain ⟨event, hevent, hexit⟩ :=
      exists_of_findSome?_eq_some (h.exitCode.symm.trans hcode)
    refine ⟨?_, ?_, ?_, h.retainedBytes, ?_, ?_, fun _ => ⟨hstreams, hexited⟩⟩
    · refine h.isTrace.concat (congrArg some h.nextSeq) (h.open hopen) ?_ fun _ => ?_
      · exact fun hexited => by cases hexited
      · exact ⟨event, hevent, by rw [isExited, hexit]; rfl⟩
    · simp [h.nextSeq]
    · simpa [outputs_concat, output?] using h.output
    · simp [exitCode?, h.exitCode]
    · simp [isClosed]

theorem Coherent.moveTo (task : ProcessTask) (phase : TaskPhase) :
    Coherent (process.moveTo task phase) :=
  ⟨h.isTrace, h.nextSeq, h.output, h.retainedBytes, h.exitCode, h.closed, h.finished⟩

theorem Coherent.step (hattended : Attended process) (next : Section) :
    Coherent (process.step next) := by
  cases next with
  | received stderr stream chunk =>
    rw [RunningProcess.step]
    split_ifs with hrunning
    · refine h.streamOutput ?_ stream chunk
      rw [hattended.openStreams]
      cases stderr <;> simp [countP_cons, hrunning]
    · exact h
  | streamFinished stderr =>
    rw [RunningProcess.step]
    split_ifs
    · have hcoherent : Coherent process.finishOutputStream := by
        refine ⟨h.isTrace, h.nextSeq, h.output, h.retainedBytes, h.exitCode, h.closed, fun hclosed => ?_⟩
        obtain ⟨hstreams, hexited⟩ := h.finished hclosed
        exact ⟨by simp [finishOutputStream, hstreams], hexited⟩
      exact hcoherent.moveTo _ _
    · exact h
  | exited exitCode denied =>
    rw [RunningProcess.step]
    split_ifs with hrunning
    · exact (h.watchExit (hattended.exitCode.mpr hrunning) exitCode denied).moveTo _ _
    · exact h
  | checked task =>
    rw [RunningProcess.step]
    split_ifs
    · exact h.maybeEmitClosed.moveTo _ _
    · exact h

end

/-- Where a section leaves a task. -/
theorem phase_step (process : RunningProcess) (next : Section) (task : ProcessTask) :
    (process.step next).phase task =
      if process.phase task = .running ∧ next.ends task then .checking
      else if process.phase task = .checking ∧ next = .checked task then .done
      else process.phase task := by
  cases next with
  | received stderr stream chunk =>
    rw [step]
    split_ifs <;> simp_all [Section.ends, streamOutput]
  | streamFinished stderr =>
    rw [step]
    split_ifs <;> simp_all [Section.ends, finishOutputStream] <;> grind
  | exited exitCode denied =>
    rw [step]
    split_ifs <;> simp_all [Section.ends, watchExit] <;> grind
  | checked other =>
    rw [step]
    split_ifs <;> simp_all [Section.ends, maybeEmitClosed_spec]
    grind

theorem Attended.step (h : Attended process) (next : Section) : Attended (process.step next) := by
  obtain ⟨hstreams, hexit, hdue⟩ := h
  cases next with
  | received stderr stream chunk =>
    rw [RunningProcess.step]
    split_ifs
    · exact ⟨hstreams, hexit, hdue⟩
    · exact ⟨hstreams, hexit, hdue⟩
  | streamFinished stderr =>
    rw [RunningProcess.step]
    split_ifs with hrunning
    · refine ⟨?_, hexit.trans (by simp [finishOutputStream]),
        fun _ _ => .inr ⟨.stream stderr, by simp⟩⟩
      change process.openStreams - 1 = _
      cases stderr <;> simp [finishOutputStream, hstreams, countP_cons, hrunning]
    · exact ⟨hstreams, hexit, hdue⟩
  | exited exitCode denied =>
    rw [RunningProcess.step]
    split_ifs
    · refine ⟨hstreams.trans (by simp [watchExit]), iff_of_false (Option.some_ne_none _) (by simp), ?_⟩
      exact fun _ _ => .inr ⟨.exit, by simp⟩
    · exact ⟨hstreams, hexit, hdue⟩
  | checked task =>
    rw [RunningProcess.step]
    split_ifs with hchecking
    · obtain ⟨hphase, hopen, hcode, hclosed⟩ := process.maybeEmitClosed_spec
      have hrunning : ∀ other, (process.maybeEmitClosed.moveTo task .done).phase other = .running ↔
          process.phase other = .running := by
        intro other
        rw [phase_moveTo, hphase]
        split_ifs with hother
        · simp [hother, hchecking]
        · rfl
      refine ⟨?_, ?_, fun hends hexited => .inl ?_⟩
      · simp only [hrunning]
        exact hopen.trans hstreams
      · rw [hrunning, ← hexit, ← hcode]
        rfl
      · exact hclosed (hopen.symm.trans hends) (hcode ▸ hexited)
    · exact ⟨hstreams, hexit, hdue⟩

theorem coherent_run (sections : List Section) : Coherent (sections.foldl step start) := by
  have hboth : Coherent (sections.foldl step start) ∧ Attended (sections.foldl step start) :=
    List.foldlRecOn (motive := fun process => Coherent process ∧ Attended process) _ _
      ⟨.start, .start⟩ fun _ h next _ => ⟨h.1.step h.2 next, h.2.step next⟩
  exact hboth.1

theorem events_isPrefix_step (process : RunningProcess) (next : Section) :
    process.events <+: (process.step next).events := by
  cases next <;> simp only [step, maybeEmitClosed] <;> split_ifs <;>
    first | exact prefix_rfl | exact prefix_append _ _

theorem events_isPrefix_run (process : RunningProcess) (later : List Section) :
    process.events <+: (later.foldl step process).events :=
  List.foldlRecOn (motive := fun after : RunningProcess => process.events <+: after.events) _ _
    prefix_rfl fun _ h next _ => h.trans (events_isPrefix_step _ next)

/-- The trace of a run. -/
def traceOf (sections : List Section) : Trace :=
  ⟨(sections.foldl step start).events, (coherent_run sections).isTrace⟩

/-- A read at any moment of a run describes the process at this moment, by the trace of the run: its
chunks are those behind `afterSeq` of what is retained of the output so far. -/
theorem execRead_describes (past later : List Section) (afterSeq : Option ℕ) :
    let process := past.foldl step start
    let response := process.execRead afterSeq none
    Describes (traceOf (past ++ later)) response ∧ response.nextSeq = process.events.length + 1 ∧
      ∃ retained, Retained (outputs process.events) retained ∧
        response.chunks = retained.filter (afterSeq.getD 0 < ·.seq) := by
  intro process response
  have h : Coherent process := coherent_run past
  have hmoment : (traceOf (past ++ later)).events.take process.events.length = process.events := by
    have hevents : (traceOf (past ++ later)).events = (later.foldl step process).events := by
      rw [← foldl_append]
      rfl
    rw [hevents]
    exact (prefix_iff_eq_take.mp (events_isPrefix_run process later)).symm
  have hnext : response.nextSeq - 1 = process.events.length := by
    change process.nextSeq - 1 = _
    rw [h.nextSeq, Nat.add_sub_cancel]
  have hsuffix : response.chunks <:+ process.output :=
    filter_isSuffix (h.isTrace.pairwise_outputs.sublist h.output.isSuffix.sublist) _
  refine ⟨⟨?_, ?_, ?_, ?_, ?_, rfl, ?_, rfl⟩, h.nextSeq, process.output, h.output, rfl⟩
  · change 0 < process.nextSeq
    rw [h.nextSeq]
    exact Nat.succ_pos _
  · rw [hnext, ← congrArg List.length hmoment, length_take]
    exact Nat.min_le_right _ _
  · rw [hnext, hmoment]
    exact hsuffix.trans h.output.isSuffix
  · exact fits_of_isSuffix hsuffix h.output.fits
  · rw [hnext, hmoment]
    exact h.exitCode
  · rw [hnext, hmoment]
    exact h.closed

end RunningProcess

end Codex.ExecServer
