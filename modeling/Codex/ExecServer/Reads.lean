import Codex.ExecServer.Process

/-!
# A client that reads on

A client reads the output of a process again and again, each time behind the events the last
response told of.  The reads come between any sections of the tasks of the process, with any limit
of bytes.  What a read returns is the front of what is retained behind the cursor, and the cursor
moves to the last chunk returned, or behind all events where nothing is left.

The invariant `Follows` ties the process, the cursor and the chunks returned so far to the events that
have happened; a section keeps it (`Follows.inside`) and so does a read (`Follows.read`).  The result
is `reads_return_output`: nothing received is lost but what is evicted before it is read, nothing is
returned twice, and the process is closed once, when its three tasks have come to their end.
-/

namespace Codex.ExecServer

open Budget List ExecProcessEvent RunningProcess

inductive ReadEvent where
  | inside (next : Section)
  | read (maxBytes : Option ℕ)
  deriving DecidableEq

namespace ReadEvent

/-- The task has done its work. -/
def ends (task : ProcessTask) : ReadEvent → Bool
  | .inside next => next.ends task
  | .read _ => false

/-- The chunk that is received, and its stream. -/
def received? : ReadEvent → Option (ExecOutputStream × Bytes)
  | .inside (.received _ stream chunk) => some (stream, chunk)
  | _ => none

/-- No stream yields a chunk after its end. -/
def InOrder (event later : ReadEvent) : Prop :=
  ∀ stderr stream chunk, later = .inside (.received stderr stream chunk) →
    event.ends (.stream stderr) = false

end ReadEvent

/-- A task has come to its end: it has done its work, and made its check later. -/
def Completed (task : ProcessTask) (past : List ReadEvent) : Prop :=
  ∃ before later, past = before ++ .inside (.checked task) :: later ∧ ∃ event ∈ before, event.ends task

/-- The response to the next read, for the process and the `after_seq` of the read. -/
def nextRead (state : RunningProcess × ℕ) (maxBytes : Option ℕ) : ReadResponse :=
  state.1.execRead (some state.2) maxBytes

/-- A read puts out the chunks it returns. -/
def readStep (state : RunningProcess × ℕ) :
    ReadEvent → (RunningProcess × ℕ) × List ProcessOutputChunk
  | .inside next => ((state.1.step next, state.2), [])
  | .read maxBytes =>
    ((state.1, (nextRead state maxBytes).nextSeq - 1), (nextRead state maxBytes).chunks)

abbrev reading (inputs : List ReadEvent) : RunningProcess × ℕ :=
  Run.after readStep (.start, 0) inputs

/-- The chunks returned over all reads. -/
abbrev returned (inputs : List ReadEvent) : List ProcessOutputChunk :=
  Run.outputs readStep (.start, 0) inputs

theorem reading_concat (inputs : List ReadEvent) (input : ReadEvent) :
    reading (inputs ++ [input]) = (readStep (reading inputs) input).1 :=
  Run.after_concat _ _ inputs input

/-! ## One read -/

/-- The chunks end with one the next number follows. -/
def EndsAt (chunks : List ProcessOutputChunk) (nextSeq : ℕ) : Prop :=
  ∃ init last, chunks = init ++ [last] ∧ nextSeq = last.seq + 1

theorem readChunks_spec {maxBytes bound next : ℕ} {taken : List ProcessOutputChunk}
    (rest chunks : List ProcessOutputChunk) (totalBytes nextSeq : ℕ)
    (h : chunks = [] ∧ nextSeq = bound ∨ EndsAt chunks nextSeq)
    (hread : readChunks maxBytes rest chunks totalBytes nextSeq = (taken, next)) :
    ∃ left, chunks ++ rest = taken ++ left ∧ (left = [] ∧ next = bound ∨ EndsAt taken next) := by
  induction rest generalizing chunks totalBytes nextSeq with
  | nil =>
    cases hread
    exact ⟨[], rfl, h.imp_left fun hnone => ⟨rfl, hnone.2⟩⟩
  | cons retained rest ih =>
    have hends : EndsAt (chunks ++ [retained]) (retained.seq + 1) := ⟨chunks, retained, rfl, rfl⟩
    rw [append_cons]
    rw [readChunks] at hread
    split_ifs at hread with hstop hfull
    · cases hread
      refine ⟨retained :: rest, by simp, .inr (h.resolve_left fun hnone => hstop.1 hnone.1)⟩
    · cases hread
      exact ⟨rest, rfl, .inr hends⟩
    · exact ih _ _ _ (.inr hends) hread

variable {state : RunningProcess × ℕ} {maxBytes : Option ℕ} {response : ReadResponse}

/-- A read takes the front of what is retained behind the cursor. -/
theorem nextRead_splits (h : nextRead state maxBytes = response) :
    ∃ left, state.1.output.filter (state.2 < ·.seq) = response.chunks ++ left ∧
      (left = [] ∧ response.nextSeq = state.1.nextSeq ∨
        EndsAt response.chunks response.nextSeq) := by
  subst h
  cases maxBytes with
  | none => exact ⟨[], (append_nil _).symm, .inl ⟨rfl, rfl⟩⟩
  | some maxBytes => exact readChunks_spec _ [] 0 _ (.inl ⟨rfl, rfl⟩) rfl

/-! ## The run -/

theorem mem_evict {chunk : ProcessOutputChunk} {output : List ProcessOutputChunk} {bytes : ℕ}
    (h : chunk ∈ (evict output bytes).1) : chunk ∈ output := by
  fun_induction evict output bytes with
  | case1 => exact h
  | case2 bytes evicted output hover ih => exact mem_cons_of_mem _ (ih h)
  | case3 => exact h

/-- A section retains no chunk anew but one with the next number. -/
theorem mem_output_step {process : RunningProcess} {next : Section} {chunk : ProcessOutputChunk}
    (h : chunk ∈ (process.step next).output) :
    chunk ∈ process.output ∨ chunk.seq = process.nextSeq := by
  cases next with
  | received stderr stream bytes =>
    rw [step] at h
    split_ifs at h
    · refine (mem_append.mp (mem_evict h)).imp_right fun hnew => ?_
      rw [mem_singleton.mp hnew]
    · exact .inl h
  | _ =>
    simp only [step, maybeEmitClosed] at h
    split_ifs at h <;> exact .inl h

theorem RunningProcess.Coherent.lt_nextSeq {process : RunningProcess} (h : Coherent process)
    {chunk : ProcessOutputChunk} (hchunk : chunk ∈ process.output) :
    chunk.seq < process.nextSeq := by
  have hevent := mem_outputs.mp (h.output.isSuffix.subset hchunk)
  obtain ⟨hpos, hget⟩ := h.isTrace.getElem?_of_seq hevent rfl
  have hlt := (List.getElem?_eq_some_iff.mp hget).1
  rw [h.nextSeq]
  omega

/-- What holds of the events so far, the process with the cursor and the chunks returned. -/
structure Follows (past : List ReadEvent) (state : RunningProcess × ℕ)
    (returned : List ProcessOutputChunk) : Prop where
  coherent : Coherent state.1
  attended : Attended state.1
  cursor : state.2 < state.1.nextSeq
  increasing : returned.Pairwise fun chunk later => chunk.seq < later.seq
  before : ∀ chunk ∈ returned, chunk ∈ outputs state.1.events ∧ chunk.seq ≤ state.2
  behind : ∀ chunk ∈ state.1.output, chunk.seq ≤ state.2 → chunk ∈ returned
  closed : state.1.events.countP isClosed = state.1.closed.toNat
  running : ∀ task, state.1.phase task = .running ↔ ∀ event ∈ past, event.ends task = false
  done : ∀ task, Completed task past → state.1.phase task = .done
  arrived : past.Pairwise ReadEvent.InOrder →
    (outputs state.1.events).map (fun chunk => (chunk.stream, chunk.chunk)) =
      past.filterMap ReadEvent.received?

theorem completed_concat {task : ProcessTask} {past : List ReadEvent} {event : ReadEvent} :
    Completed task (past ++ [event]) ↔ Completed task past ∨
      event = .inside (.checked task) ∧ ∃ ending ∈ past, ending.ends task = true := by
  constructor
  · rintro ⟨before, later, hsplit, hends⟩
    rcases eq_nil_or_concat later with rfl | ⟨front, last, rfl⟩
    · obtain ⟨rfl, hlast⟩ := append_inj' hsplit rfl
      exact .inr ⟨singleton_inj.mp hlast, hends⟩
    · rw [concat_eq_append, ← cons_append, ← append_assoc] at hsplit
      obtain ⟨rfl, -⟩ := append_inj' hsplit rfl
      exact .inl ⟨before, front, rfl, hends⟩
  · rintro (⟨before, later, rfl, hends⟩ | ⟨rfl, hends⟩)
    · exact ⟨before, later ++ [event], by simp, hends⟩
    · exact ⟨past, [], rfl, hends⟩

/-- What a section adds to the output. -/
theorem outputs_step (process : RunningProcess) (next : Section) :
    outputs (process.step next).events = outputs process.events ++
      match next with
      | .received stderr stream chunk =>
        if process.phase (.stream stderr) = .running then [⟨process.nextSeq, stream, chunk⟩] else []
      | _ => [] := by
  cases next <;> simp only [step, maybeEmitClosed] <;> split_ifs <;>
    simp [moveTo, streamOutput, finishOutputStream, watchExit, outputs_concat, output?]

section

variable {past : List ReadEvent} {state : RunningProcess × ℕ} {out : List ProcessOutputChunk}
  (h : Follows past state out)
include h

theorem Follows.arrived_inside (next : Section)
    (horder : (past ++ [ReadEvent.inside next]).Pairwise ReadEvent.InOrder) :
    (outputs (state.1.step next).events).map (fun chunk => (chunk.stream, chunk.chunk)) =
      (past ++ [ReadEvent.inside next]).filterMap ReadEvent.received? := by
  obtain ⟨hpast, -, hnext⟩ := pairwise_append.mp horder
  rw [outputs_step, map_append, h.arrived hpast, filterMap_append]
  cases next with
  | received stderr stream chunk =>
    have hrunning : state.1.phase (.stream stderr) = .running :=
      (h.running _).mpr fun event hevent =>
        hnext event hevent _ (mem_singleton_self _) stderr stream chunk rfl
    simp [hrunning, ReadEvent.received?]
  | _ => rfl

theorem Follows.inside (next : Section) :
    Follows (past ++ [.inside next]) (state.1.step next, state.2) out := by
  have hcoherent := h.coherent.step h.attended next
  have hcursor := h.cursor
  refine ⟨hcoherent, h.attended.step next, ?_, h.increasing, fun chunk hchunk => ?_,
    fun chunk hchunk hle => ?_, ?_, fun task => ?_, fun task hcompleted => ?_, h.arrived_inside next⟩
  · have hlength := (events_isPrefix_step state.1 next).length_le
    rw [h.coherent.nextSeq] at hcursor
    rw [hcoherent.nextSeq]
    omega
  · obtain ⟨hmem, hle⟩ := h.before chunk hchunk
    exact ⟨outputs_step state.1 next ▸ mem_append_left _ hmem, hle⟩
  · refine h.behind chunk ((mem_output_step hchunk).resolve_right fun hnew => ?_) hle
    omega
  · have hclosed := h.closed
    cases next <;> simp only [step, maybeEmitClosed] <;> split_ifs <;>
      simp_all [moveTo, streamOutput, finishOutputStream, watchExit, isClosed]
  · have hrunning := h.running task
    rw [phase_step, forall_mem_append, ← hrunning, forall_mem_singleton, ReadEvent.ends]
    grind
  · rw [phase_step]
    rcases completed_concat.mp hcompleted with hpast | ⟨hcheck, ending, hmem, hends⟩
    · rw [h.done task hpast]
      simp
    · have hphase : state.1.phase task ≠ .running := fun hrunning => by
        rw [(h.running task).mp hrunning ending hmem] at hends
        cases hends
      cases hcheck
      cases hcase : state.1.phase task <;> simp_all

/-- The chunks returned are before the next cursor, what is left of the retained ones behind. -/
theorem Follows.nextRead_spec (hread : nextRead state maxBytes = response) :
    state.2 ≤ response.nextSeq - 1 ∧ response.nextSeq - 1 < state.1.nextSeq ∧
      response.chunks.Pairwise (fun chunk later => chunk.seq < later.seq) ∧
      (∀ chunk ∈ response.chunks, state.2 < chunk.seq ∧ chunk.seq ≤ response.nextSeq - 1) ∧
      ∀ chunk ∈ state.1.output, state.2 < chunk.seq → chunk ∈ response.chunks ∨
        state.2 < response.nextSeq - 1 ∧ response.nextSeq - 1 < chunk.seq := by
  obtain ⟨left, hsplit, hnext⟩ := nextRead_splits hread
  have hordered := h.coherent.isTrace.pairwise_outputs.sublist h.coherent.output.isSuffix.sublist
  replace hordered := hordered.filter (state.2 < ·.seq)
  rw [hsplit, pairwise_append] at hordered
  obtain ⟨hchunks, -, hleft⟩ := hordered
  have hmem : ∀ chunk, chunk ∈ response.chunks ∨ chunk ∈ left ↔
      chunk ∈ state.1.output ∧ state.2 < chunk.seq := by
    intro chunk
    rw [← mem_append, ← hsplit, mem_filter, decide_eq_true_eq]
  rcases hnext with ⟨rfl, hnext⟩ | ⟨init, last, hlast, hnext⟩
  · have hlt := h.cursor
    rw [hnext]
    refine ⟨by omega, by omega, hchunks, fun chunk hchunk => ?_, fun chunk hchunk hnew => ?_⟩
    · obtain ⟨hretained, hnew⟩ := (hmem chunk).mp (.inl hchunk)
      exact ⟨hnew, Nat.le_sub_one_of_lt (h.coherent.lt_nextSeq hretained)⟩
    · exact .inl (((hmem chunk).mpr ⟨hchunk, hnew⟩).resolve_right not_mem_nil)
  · have hself : last ∈ response.chunks := by simp [hlast]
    obtain ⟨hretained, hnew⟩ := (hmem last).mp (.inl hself)
    rw [hnext]
    refine ⟨Nat.le_of_lt hnew, h.coherent.lt_nextSeq hretained, hchunks, fun chunk hchunk => ?_,
      fun chunk hchunk hbehind => ((hmem chunk).mpr ⟨hchunk, hbehind⟩).imp_right fun hlater =>
        ⟨hnew, hleft last hself chunk hlater⟩⟩
    refine ⟨((hmem chunk).mp (.inl hchunk)).2, ?_⟩
    rw [hlast] at hchunks hchunk
    rcases mem_append.mp hchunk with hinit | hsame
    · exact Nat.le_of_lt ((pairwise_append.mp hchunks).2.2 chunk hinit last (mem_singleton_self _))
    · rw [mem_singleton.mp hsame]
      exact Nat.le_refl _

theorem Follows.read (hread : nextRead state maxBytes = response) :
    Follows (past ++ [.read maxBytes]) (state.1, response.nextSeq - 1) (out ++ response.chunks) := by
  obtain ⟨hforward, hbound, hchunks, htaken, hleft⟩ := h.nextRead_spec hread
  refine ⟨h.coherent, h.attended, hbound, ?_, fun chunk hchunk => ?_, fun chunk hchunk hle => ?_,
    h.closed, fun task => ?_, fun task hcompleted => ?_, fun horder => ?_⟩
  · refine pairwise_append.mpr ⟨h.increasing, hchunks, fun chunk hpast later hlater => ?_⟩
    exact Nat.lt_of_le_of_lt (h.before chunk hpast).2 (htaken later hlater).1
  · rcases mem_append.mp hchunk with hpast | hnew
    · obtain ⟨hmem, hle⟩ := h.before chunk hpast
      exact ⟨hmem, Nat.le_trans hle hforward⟩
    · refine ⟨h.coherent.output.isSuffix.subset ?_, (htaken chunk hnew).2⟩
      obtain ⟨left, hsplit, -⟩ := nextRead_splits hread
      exact (mem_filter.mp (hsplit ▸ mem_append_left left hnew)).1
  · rcases Nat.lt_or_ge state.2 chunk.seq with hnew | hpast
    · refine mem_append_right _ ((hleft chunk hchunk hnew).resolve_right fun hlater => ?_)
      exact absurd hlater.2 (Nat.not_lt.mpr hle)
    · exact mem_append_left _ (h.behind chunk hchunk hpast)
  · rw [forall_mem_append, ← h.running task]
    simp [ReadEvent.ends]
  · refine h.done task ((completed_concat.mp hcompleted).resolve_right ?_)
    rintro ⟨hcheck, -⟩
    cases hcheck
  · rw [h.arrived (pairwise_append.mp horder).1, filterMap_append]
    simp [ReadEvent.received?]

end

theorem follows (inputs : List ReadEvent) : Follows inputs (reading inputs) (returned inputs) := by
  refine Run.invariant _ _ ?_ ?_ inputs
  · refine ⟨.start, .start, Nat.zero_lt_one, .nil, ?_, ?_, rfl, ?_, ?_, fun _ => rfl⟩
    all_goals simp [RunningProcess.start, Completed]
  · intro past state out input h
    cases input with
    | inside next =>
      rw [readStep, append_nil]
      exact h.inside next
    | read maxBytes => exact h.read rfl

section

variable {past : List ReadEvent} {state : RunningProcess × ℕ} {out : List ProcessOutputChunk}
  (h : Follows past state out)
include h

/-- The close comes after the exit and the ends of the streams. -/
theorem Follows.ended_of_closed (hclosed : state.1.closed = true) (task : ProcessTask) :
    ∃ event ∈ past, event.ends task = true := by
  obtain ⟨hstreams, hexited⟩ := h.coherent.finished hclosed
  have hphase : state.1.phase task ≠ .running := by
    cases task with
    | stream stderr =>
      rw [h.attended.openStreams, countP_eq_zero] at hstreams
      simpa using hstreams stderr (by cases stderr <;> simp)
    | exit => exact fun hrunning => hexited (h.attended.exitCode.mpr hrunning)
  simpa using mt (h.running task).mpr hphase

/-- When all tasks have come to their end, the last check has closed the process. -/
theorem Follows.closed_of_completed (hcompleted : ∀ task, Completed task past) :
    state.1.closed = true := by
  have hdone := fun task => h.done task (hcompleted task)
  have hstreams : state.1.openStreams = 0 := by
    rw [h.attended.openStreams, countP_eq_zero]
    simp [hdone]
  have hexited : state.1.exitCode ≠ none := by
    rw [Ne, h.attended.exitCode, hdone]
    decide
  refine (h.attended.due hstreams hexited).resolve_right ?_
  rintro ⟨task, hchecking⟩
  rw [hdone task] at hchecking
  cases hchecking

theorem Follows.nodup_seq : (state.1.events.map seq).Nodup := by
  rw [Nodup, pairwise_map, pairwise_iff_getElem]
  intro i j hi hj hlt heq
  rw [h.coherent.isTrace.numbered i _ (getElem?_eq_getElem hi),
    h.coherent.isTrace.numbered j _ (getElem?_eq_getElem hj)] at heq
  cases heq
  exact absurd hlt (Nat.lt_irrefl _)

end

/-! ## Endless reading -/

/-- The events before a moment. -/
abbrev upTo (schedule : ℕ → ReadEvent) (n : ℕ) : List ReadEvent := (range n).map schedule

/-- A retained chunk is reached by a client that reads on without end. -/
theorem exists_returned {schedule : ℕ → ReadEvent} {chunk : ProcessOutputChunk} {n : ℕ}
    (hreads : ∀ n, ∃ m ≥ n, ∃ maxBytes, schedule m = .read maxBytes)
    (hkept : ∀ m ≥ n, chunk ∈ (reading (upTo schedule m)).1.output ∨
      chunk ∈ returned (upTo schedule m)) : ∃ m ≥ n, chunk ∈ returned (upTo schedule m) := by
  have hsucc : ∀ m, upTo schedule (m + 1) = upTo schedule m ++ [schedule m] := by
    simp [upTo, range_succ]
  by_cases hnow : chunk ∈ returned (upTo schedule n)
  · exact ⟨n, Nat.le_refl n, hnow⟩
  -- the distance of the cursor from the chunk drops at each read that leaves the chunk
  refine Run.exists_of_rank (fun m => n ≤ m ∧ chunk ∉ returned (upTo schedule m))
    (fun m => chunk.seq - (reading (upTo schedule m)).2) hreads ?_ ?_ ⟨Nat.le_refl n, hnow⟩
  · rintro m ⟨maxBytes, hread⟩ ⟨hle, hnot⟩
    have h := follows (upTo schedule m)
    have hretained := (hkept m hle).resolve_right hnot
    have hbehind : (reading (upTo schedule m)).2 < chunk.seq :=
      Nat.lt_of_not_le fun hpast => hnot (h.behind chunk hretained hpast)
    obtain ⟨-, -, -, -, hleft⟩ := h.nextRead_spec (rfl : nextRead _ maxBytes = _)
    rw [hsucc, hread, returned, Run.outputs_concat, reading_concat]
    refine (Classical.em _).imp_right fun hlater => ⟨⟨by omega, hlater⟩, ?_⟩
    have hpast := (hleft chunk hretained hbehind).resolve_left (hlater <| mem_append_right _ ·)
    change chunk.seq - ((nextRead _ maxBytes).nextSeq - 1) < _
    omega
  · rintro m hother ⟨hle, -⟩
    refine (Classical.em _).imp_right fun hnot => ⟨⟨by omega, hnot⟩, ?_⟩
    rw [hsucc, reading_concat]
    cases hinput : schedule m with
    | inside next => exact Nat.le_refl _
    | read maxBytes => exact absurd ⟨maxBytes, hinput⟩ hother

/-- For every interleaving of the tasks of a process and a client that reads on:

* the output is what the streams yielded, chunk by chunk, and its longest end within the limits is
  retained, with the right number of bytes;
* the chunks returned are chunks of the output, in increasing order and none twice, and a retained chunk
  that the cursor has passed has been returned;
* no two events have the same number, and the close comes once at most, after the exit and both ends;
* it has come when the three tasks have come to their end;
* a chunk that is not evicted before is returned by some read, if there are always more. -/
theorem reads_return_output :
    (∀ inputs,
      (inputs.Pairwise ReadEvent.InOrder →
        (outputs (reading inputs).1.events).map (fun chunk => (chunk.stream, chunk.chunk)) =
          inputs.filterMap ReadEvent.received?) ∧
      Retained (outputs (reading inputs).1.events) (reading inputs).1.output ∧
      (reading inputs).1.retainedBytes =
        total ProcessOutputChunk.length (reading inputs).1.output ∧
      returned inputs ⊆ outputs (reading inputs).1.events ∧
      (returned inputs).Pairwise (fun chunk later => chunk.seq < later.seq) ∧
      (∀ chunk ∈ (reading inputs).1.output, chunk.seq ≤ (reading inputs).2 →
        chunk ∈ returned inputs) ∧
      ((reading inputs).1.events.map seq).Nodup ∧
      (reading inputs).1.events.countP isClosed ≤ 1 ∧
      (∀ event ∈ (reading inputs).1.events, event.isClosed →
        (∃ exit ∈ (reading inputs).1.events, exit.isExited) ∧
          ∀ task, ∃ event ∈ inputs, event.ends task = true) ∧
      ((∀ task, Completed task inputs) → (reading inputs).1.events.countP isClosed = 1)) ∧
    ∀ (schedule : ℕ → ReadEvent) chunk n,
      (∀ n, ∃ m ≥ n, ∃ maxBytes, schedule m = .read maxBytes) →
      (∀ m ≥ n, chunk ∈ (reading (upTo schedule m)).1.output ∨
        chunk ∈ returned (upTo schedule m)) →
      ∃ m ≥ n, chunk ∈ returned (upTo schedule m) := by
  refine ⟨fun inputs => ?_, fun schedule chunk n => exists_returned⟩
  have h := follows inputs
  refine ⟨h.arrived, h.coherent.output, h.coherent.retainedBytes, fun chunk hchunk => ?_, h.increasing,
    h.behind, h.nodup_seq, ?_, fun event hevent hclosed => ?_, fun hcompleted => ?_⟩
  · exact (h.before chunk hchunk).1
  · rw [h.closed]
    exact Bool.toNat_le _
  · have hany : (reading inputs).1.closed :=
      h.coherent.closed.trans (any_eq_true.mpr ⟨event, hevent, hclosed⟩)
    exact ⟨h.coherent.isTrace.exited_of_closed event hevent hclosed, h.ended_of_closed hany⟩
  · rw [h.closed, h.closed_of_completed hcompleted]
    rfl

end Codex.ExecServer
