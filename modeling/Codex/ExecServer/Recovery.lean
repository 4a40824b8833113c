import Codex.ExecServer.InOrder
import Mathlib.Order.Interval.Finset.Nat

/-!
# Recovering events

The read response of a recovery describes the process at some moment of its trace, but does not tell
the number of the exit.  The recovery takes the first gap before a chunk for the exit, or else the one
number that is missing at the end.  The second is always right.  The first is wrong if the gap is
output that is no longer retained; apart from this, a recovery keeps the session in order, and a
response that misses no output brings it to its target.
-/

namespace Codex.ExecServer

open ExecProcessEvent SortedMap List

/-! ## What a response tells -/

section Describes

variable {trace : Trace} {response : ReadResponse}

def targetSeq (response : ReadResponse) : ℕ := response.nextSeq - 1

def ExitAt (trace : Trace) (seq : ℕ) : Prop :=
  ∃ exit ∈ trace.events, exit.isExited ∧ exit.seq = some seq

def OutputAt (trace : Trace) (seq : ℕ) : Prop :=
  ∃ chunk, .output chunk ∈ trace.events ∧ chunk.seq = seq

/-- The response has all output after a number. -/
def Complete (trace : Trace) (response : ReadResponse) (last : ℕ) : Prop :=
  ∀ chunk ∈ outputs (trace.events.take (targetSeq response)), last < chunk.seq →
    chunk ∈ response.chunks

variable {seq : ℕ}

/-- Every number has an event: output, the exit or the close, which is the last. -/
theorem kind_of_seq (trace : Trace) (hpos : 0 < seq) (hle : seq ≤ trace.events.length) :
    OutputAt trace seq ∨ ExitAt trace seq ∨ .closed seq ∈ trace.events := by
  have hlt : seq - 1 < trace.events.length := by omega
  have hseq := trace.isTrace.numbered (seq - 1) _ (getElem?_eq_getElem hlt)
  have hevent := getElem_mem hlt
  rw [Nat.sub_add_cancel hpos] at hseq
  generalize trace.events[seq - 1] = event at hseq hevent
  cases event with
  | output chunk => exact .inl ⟨chunk, hevent, Option.some.inj hseq⟩
  | exited seq' exitCode denied => exact .inr (.inl ⟨_, hevent, rfl, hseq⟩)
  | closed seq' =>
    cases hseq
    exact .inr (.inr hevent)
  | failed message => cases hseq

theorem eq_length_of_closed (h : .closed seq ∈ trace.events) : seq = trace.events.length := by
  have hlast := trace.isTrace.closed_last _ h rfl
  rw [getLast?_eq_getElem?] at hlast
  have hplace := trace.isTrace.numbered _ _ hlast
  have hpos := length_pos_of_mem h
  have := Option.some.inj hplace
  omega

theorem ExitAt.unique {seq' : ℕ} (h : ExitAt trace seq) (h' : ExitAt trace seq') : seq = seq' := by
  obtain ⟨exit, hexit, hexited, hseq⟩ := h
  obtain ⟨exit', hexit', hexited', hseq'⟩ := h'
  rw [trace.isTrace.exit_unique exit hexit exit' hexit' hexited hexited', hseq'] at hseq
  exact (Option.some.inj hseq).symm

theorem ExitAt.not_outputAt (h : ExitAt trace seq) : ¬ OutputAt trace seq := by
  rintro ⟨chunk, hchunk, hseq⟩
  obtain ⟨exit, hexit, hexited, hseq'⟩ := h
  rw [← eq_of_seq hchunk hexit (congrArg some hseq) hseq'] at hexited
  cases hexited

theorem ExitAt.ne_length_of_closed {seq' : ℕ} (h : ExitAt trace seq)
    (hclosed : .closed seq' ∈ trace.events) : seq ≠ seq' := by
  rintro rfl
  obtain ⟨exit, hexit, hexited, hseq⟩ := h
  rw [← eq_of_seq hclosed hexit rfl hseq] at hexited
  cases hexited

variable {chunk : ProcessOutputChunk}

theorem mem_outputs_take {moment : ℕ} :
    chunk ∈ outputs (trace.events.take moment) ↔ .output chunk ∈ trace.events ∧ chunk.seq ≤ moment := by
  rw [mem_outputs]
  constructor
  · intro hmem
    have hevent := mem_of_mem_take hmem
    exact ⟨hevent, (mem_take_of_seq hevent rfl).mp hmem⟩
  · rintro ⟨hevent, hle⟩
    exact (mem_take_of_seq hevent rfl).mpr hle

theorem pairwise_outputs_take (trace : Trace) (moment : ℕ) :
    (outputs (trace.events.take moment)).Pairwise fun chunk later => chunk.seq < later.seq :=
  trace.isTrace.pairwise_outputs.sublist ((take_sublist _ _).filterMap _)

namespace Describes

variable (h : Describes trace response)

include h

theorem target_le : targetSeq response ≤ trace.events.length := h.moment

theorem mem_events (hchunk : chunk ∈ response.chunks) :
    .output chunk ∈ trace.events ∧ 0 < chunk.seq ∧ chunk.seq ≤ targetSeq response := by
  obtain ⟨hevent, hle⟩ := mem_outputs_take.mp (h.chunks.subset hchunk)
  exact ⟨hevent, (seq_le_of_mem hevent rfl).1, hle⟩

theorem pairwise_chunks : response.chunks.Pairwise fun chunk later => chunk.seq < later.seq :=
  (pairwise_outputs_take trace _).sublist h.chunks.sublist

/-- Output that comes after retained output is retained. -/
theorem mem_chunks_of_le {later : ProcessOutputChunk} (hchunk : chunk ∈ response.chunks)
    (hlater : later ∈ outputs (trace.events.take (targetSeq response)))
    (hle : chunk.seq ≤ later.seq) : later ∈ response.chunks := by
  obtain ⟨evicted, hevicted⟩ := h.chunks
  have hsorted := pairwise_outputs_take trace (response.nextSeq - 1)
  rw [← hevicted] at hsorted
  rw [targetSeq, ← hevicted] at hlater
  rcases mem_append.mp hlater with hgone | hkept
  · have hlt := (pairwise_append.mp hsorted).2.2 later hgone chunk hchunk
    omega
  · exact hkept

theorem exited_iff : response.exited = true ↔ ∃ seq ≤ targetSeq response, ExitAt trace seq := by
  rw [h.exited, h.exitCode, findSome?_isSome_iff]
  constructor
  · rintro ⟨exit, hexit, hexited⟩
    have hevent := mem_of_mem_take hexit
    obtain ⟨seq, hseq⟩ := (Genuine.of_mem hevent).seq_isSome
    exact ⟨seq, (mem_take_of_seq hevent hseq).mp hexit, exit, hevent, hexited, hseq⟩
  · rintro ⟨seq, hle, exit, hexit, hexited, hseq⟩
    exact ⟨exit, (mem_take_of_seq hexit hseq).mpr hle, hexited⟩

/-- The exit code of the response is that of the exit. -/
theorem exists_exitCode (hexit : ExitAt trace seq) (hle : seq ≤ targetSeq response)
    (denied : Option Bool) :
    ∃ exitCode, response.exitCode = some exitCode ∧ Genuine trace (.exited seq exitCode denied) := by
  have hexited := h.exited_iff.mpr ⟨seq, hle, hexit⟩
  rw [h.exited] at hexited
  obtain ⟨exitCode, hcode⟩ := Option.isSome_iff_exists.mp hexited
  refine ⟨exitCode, hcode, ?_⟩
  obtain ⟨event, hevent, hfound⟩ := exists_of_findSome?_eq_some (h.exitCode.symm.trans hcode)
  have hmem := mem_of_mem_take hevent
  obtain ⟨exit, hexit, hisExited, hseq⟩ := hexit
  have hsame := trace.isTrace.exit_unique event hmem exit hexit (by
    rw [isExited, hfound]
    rfl) hisExited
  subst hsame
  cases event with
  | exited seq' exitCode' denied' =>
    cases hfound
    cases hseq
    exact ⟨_, hmem, rfl⟩
  | _ => cases hfound

theorem closed_iff : response.closed = true ↔ .closed (targetSeq response) ∈ trace.events := by
  rw [h.closed, any_eq_true]
  constructor
  · rintro ⟨event, hevent, hclosed⟩
    have hmem := mem_of_mem_take hevent
    cases event with
    | closed seq =>
      have hlast := eq_length_of_closed hmem
      have hle : seq ≤ targetSeq response := (mem_take_of_seq hmem rfl).mp hevent
      have htarget := h.target_le
      have hsame : seq = targetSeq response := by omega
      rwa [hsame] at hmem
    | _ => cases hclosed
  · exact fun hmem => ⟨_, (mem_take_of_seq hmem rfl).mpr (Nat.le_refl _), rfl⟩

/-- With the close everything is published. -/
theorem target_le_of_closedPublished {session : SessionState} (hrunning : Running trace session)
    (hclosed : session.closedPublished = true) :
    targetSeq response ≤ session.lastPublishedSeq := by
  rw [hrunning.closedPublished] at hclosed
  obtain ⟨event, hmem, hisClosed⟩ := any_eq_true.mp hclosed
  cases event with
  | closed seq =>
    have hevent := mem_of_mem_take hmem
    have hseq := eq_length_of_closed hevent
    have hle : seq ≤ session.lastPublishedSeq := (mem_take_of_seq hevent rfl).mp hmem
    have := h.target_le
    omega
  | _ => cases hisClosed

end Describes

end Describes

/-! ## The loop over the chunks -/

/-- The exit is among the numbers the session has. -/
def ExitKnown (trace : Trace) (response : ReadResponse) (session : SessionState) : Prop :=
  ∃ seq ≤ targetSeq response, ExitAt trace seq ∧ Has session seq

/-- While the exit is unknown, a response with output does not miss the output that comes next. -/
def Placed (trace : Trace) (response : ReadResponse) (session : SessionState) : Prop :=
  response.exited → ¬ ExitKnown trace response session → response.chunks ≠ [] →
    ∀ chunk ∈ outputs (trace.events.take (targetSeq response)),
      chunk.seq = session.lastPublishedSeq + 1 → chunk ∈ response.chunks

section Loop

variable (trace : Trace) (response : ReadResponse) (start : SessionState)

/-- What holds at every step of a recovery. -/
structure Stage (exitKnown : Bool) (session : SessionState) : Prop where
  running : Running trace session
  last_le : start.lastPublishedSeq ≤ session.lastPublishedSeq
  has : ∀ seq, Has start seq → Has session seq
  known : response.exited → (exitKnown = true ↔ ExitKnown trace response session)

/-- What holds when some of the chunks are done. -/
structure Recovering (done : List ProcessOutputChunk) (recovered : Recovered)
    (session : SessionState) : Prop extends
    Stage trace response start recovered.exitKnown session where
  settled : Settled session
  done_has : ∀ chunk ∈ done, Has session chunk.seq
  done_le : Complete trace response start.lastPublishedSeq →
    ∀ chunk ∈ done, chunk.seq ≤ session.lastPublishedSeq

/-- What an error leaves. -/
def Broken (session : SessionState) : Prop :=
  Running trace session ∧ Settled session ∧ ¬ Complete trace response start.lastPublishedSeq

variable {trace response start} (h : Describes trace response)
  {done rest : List ProcessOutputChunk} {chunk : ProcessOutputChunk} {recovered : Recovered}
  {session session' : SessionState}

variable {exitKnown : Bool}

/-- A session that has one more number. -/
theorem Stage.grow {seq : ℕ} (hstage : Stage trace response start exitKnown session)
    (hrunning : Running trace session')
    (hlast : session.lastPublishedSeq ≤ session'.lastPublishedSeq)
    (hhas : ∀ seq', Has session' seq' ↔ Has session seq' ∨ seq' = seq) (exitKnown' : Bool)
    (hknown : response.exited →
      (exitKnown' = true ↔ exitKnown = true ∨ ExitAt trace seq ∧ seq ≤ targetSeq response)) :
    Stage trace response start exitKnown' session' := by
  refine ⟨hrunning, Nat.le_trans hstage.last_le hlast,
    fun seq' hstart => (hhas seq').mpr (.inl (hstage.has seq' hstart)), fun hexited => ?_⟩
  rw [hknown hexited, hstage.known hexited]
  constructor
  · rintro (⟨seq', hle, hexit, hold⟩ | ⟨hexit, hle⟩)
    · exact ⟨seq', hle, hexit, (hhas seq').mpr (.inl hold)⟩
    · exact ⟨seq, hle, hexit, (hhas seq).mpr (.inr rfl)⟩
  · rintro ⟨seq', hle, hexit, hnew⟩
    rcases (hhas seq').mp hnew with hold | rfl
    · exact .inl ⟨seq', hle, hexit, hold⟩
    · exact .inr ⟨hexit, hle⟩

include h

theorem mem_done_of_lt (hchunks : response.chunks = done ++ chunk :: rest)
    {other : ProcessOutputChunk} (hother : other ∈ response.chunks) (hlt : other.seq < chunk.seq) :
    other ∈ done := by
  have hsorted := h.pairwise_chunks
  rw [hchunks] at hother hsorted
  have hlater := (pairwise_cons.mp (pairwise_append.mp hsorted).2.1).1
  rcases mem_append.mp hother with hdone | hrest
  · exact hdone
  · rcases mem_cons.mp hrest with rfl | hrest
    · omega
    · have := hlater other hrest
      omega

/-- Output that is neither published nor done is missing in the response. -/
theorem not_outputAt_next (hchunks : response.chunks = done ++ chunk :: rest)
    (hstate : Recovering trace response start done recovered session)
    (hgap : session.lastPublishedSeq + 1 < chunk.seq)
    (hretained : ∀ other ∈ outputs (trace.events.take (targetSeq response)),
      other.seq = session.lastPublishedSeq + 1 → other ∈ response.chunks) :
    ¬ OutputAt trace (session.lastPublishedSeq + 1) := by
  rintro ⟨other, hother, hseq⟩
  obtain ⟨-, -, hle⟩ := h.mem_events (hchunks ▸ by simp : chunk ∈ response.chunks)
  have hmem := hretained other (mem_outputs_take.mpr ⟨hother, by omega⟩) hseq
  have hhas := hstate.done_has other (mem_done_of_lt h hchunks hmem (by omega))
  exact hstate.settled.not_has (hseq ▸ hhas)

/-- A number before a chunk is not that of the close. -/
theorem kind_of_lt_chunk (hchunk : chunk ∈ response.chunks) {seq : ℕ} (hpos : 0 < seq)
    (hlt : seq < chunk.seq) : OutputAt trace seq ∨ ExitAt trace seq := by
  obtain ⟨-, -, hle⟩ := h.mem_events hchunk
  have htarget := h.target_le
  rcases kind_of_seq trace hpos (by omega) with houtput | hexit | hclosed
  · exact .inl houtput
  · exact .inr hexit
  · have := eq_length_of_closed hclosed
    omega

/-- The gap before a chunk is the exit. -/
theorem exitAt_gap (hplaced : Placed trace response start)
    (hchunks : response.chunks = done ++ chunk :: rest)
    (hstate : Recovering trace response start done recovered session) (hexited : response.exited)
    (hunknown : recovered.exitKnown = false) (hgap : session.lastPublishedSeq + 1 < chunk.seq) :
    ExitAt trace (session.lastPublishedSeq + 1) := by
  have hchunk : chunk ∈ response.chunks := hchunks ▸ by simp
  obtain ⟨-, -, hle⟩ := h.mem_events hchunk
  have hnotKnown : ¬ ExitKnown trace response session := by
    rw [← hstate.known hexited, hunknown]
    simp
  have hstart : ¬ ExitKnown trace response start := by
    rintro ⟨seq, hseq, hexit, hhas⟩
    exact hnotKnown ⟨seq, hseq, hexit, hstate.has seq hhas⟩
  have hfirst := hplaced hexited hstart (ne_nil_of_mem hchunk)
  refine (kind_of_lt_chunk h hchunk (Nat.succ_pos _) hgap).resolve_left ?_
  have hlast := hstate.last_le
  -- the event right after those published at the start
  rcases kind_of_lt_chunk h hchunk (Nat.succ_pos start.lastPublishedSeq) (by omega) with
    ⟨first, hevent, hseq⟩ | hexit
  · -- it is retained, and so is all output after it
    have hmem := hfirst first (mem_outputs_take.mpr ⟨hevent, by omega⟩) hseq
    exact not_outputAt_next h hchunks hstate hgap fun other hother hnext =>
      h.mem_chunks_of_le hmem hother (by omega)
  · -- it is the exit, which is unknown, so that nothing was published
    have hsame : session.lastPublishedSeq = start.lastPublishedSeq := by
      by_contra hne
      exact hnotKnown ⟨_, by omega, hexit, .inl (by omega)⟩
    rw [hsame]
    exact hexit.not_outputAt

/-- If no output is missing, a chunk that is not published is next. -/
theorem seq_eq_of_complete (hchunks : response.chunks = done ++ chunk :: rest)
    (hstate : Recovering trace response start done recovered session)
    (hexit : response.exited → recovered.exitKnown = true ∨ chunk.seq ≤ session.lastPublishedSeq + 1)
    (hcomplete : Complete trace response start.lastPublishedSeq)
    (hlast : session.lastPublishedSeq < chunk.seq) : chunk.seq = session.lastPublishedSeq + 1 := by
  by_contra hne
  have hgap : session.lastPublishedSeq + 1 < chunk.seq := by omega
  have hchunk : chunk ∈ response.chunks := hchunks ▸ by simp
  obtain ⟨-, -, hle⟩ := h.mem_events hchunk
  have hstart := hstate.last_le
  rcases kind_of_lt_chunk h hchunk (Nat.succ_pos _) hgap with houtput | hexitAt
  · exact not_outputAt_next h hchunks hstate hgap
      (fun other hother hseq => hcomplete other hother (by omega)) houtput
  · have hexited := h.exited_iff.mpr ⟨_, by omega, hexitAt⟩
    have hknown := (hexit hexited).resolve_right (by omega)
    obtain ⟨seq, -, hknownAt, hhas⟩ := (hstate.known hexited).mp hknown
    rw [hknownAt.unique hexitAt] at hhas
    exact hstate.settled.not_has hhas

omit h in
theorem insertPending_triple {event : ExecProcessEvent} {Q : Unit → SessionState → Prop}
    {E : SessionError → SessionState → Prop}
    (hok : ∀ session', session.insertPending event = .ok session' → Q () session')
    (herror : ∀ error, session.insertPending event = .error error → E error session) :
    Triple (· = session) (insertPending event) Q E := by
  rintro session' rfl
  dsimp only [Prog.exec, insertPending]
  cases hinsert : session'.insertPending event with
  | ok session'' => exact hok session'' hinsert
  | error error => exact herror error hinsert

omit h in
/-- Publishing after an event was inserted. -/
theorem publishReady_triple (hrunning : Running trace session) {event : ExecProcessEvent} {seq : ℕ}
    (hseq : event.seq = some seq) (hlast : session.lastPublishedSeq < seq)
    (hgenuine : Genuine trace event) {E : SessionError → SessionState → Prop} :
    Triple (fun session' => session.insertPending event = .ok session') publishReady
      (fun _ => Took trace seq session) E := by
  refine .step fun session' hinsert => ?_
  have hadvance := publishReady_advance session'
  rcases @insertPending_eq session event seq hseq with ⟨hkept, hok⟩ | ⟨hnew, hok | ⟨error, herror⟩⟩
  · rw [hok] at hinsert
    cases hinsert
    refine ⟨hrunning.publishReady, settled_publishReady _, hadvance.last_le, fun seq' => ?_⟩
    rw [hadvance.has]
    constructor
    · exact .inl
    · rintro (hhas | rfl)
      · exact hhas
      · exact .inr hkept
  · rw [hok] at hinsert
    cases hinsert
    refine ⟨(hrunning.keep hnew hlast hseq hgenuine).publishReady, settled_publishReady _,
      hadvance.last_le, fun seq' => ?_⟩
    rw [hadvance.has, has_keep]
  · rw [herror] at hinsert
    cases hinsert

theorem recoverGap_triple (hplaced : Placed trace response start)
    (hchunks : response.chunks = done ++ chunk :: rest) :
    Triple (Recovering trace response start done recovered) (recoverGap response recovered chunk)
      (fun recovered' session => Recovering trace response start done recovered' session ∧
        (response.exited → recovered'.exitKnown = true ∨ chunk.seq ≤ session.lastPublishedSeq + 1))
      (fun _ => Broken trace response start) := by
  refine .read fun session hstate => ?_
  split_ifs with hcond
  · obtain ⟨hexited, hunknown, hgap⟩ := hcond
    have hexit := exitAt_gap h hplaced hchunks hstate hexited (by simpa using hunknown) hgap
    obtain ⟨-, -, hle⟩ := h.mem_events (hchunks ▸ by simp : chunk ∈ response.chunks)
    obtain ⟨exitCode, hcode, hgenuine⟩ :=
      h.exists_exitCode hexit (by omega) (some response.sandboxDenied)
    rw [insertExit, hcode]
    refine .bind (insertPending_triple (fun _ hok => hok) fun error herror => ?_) fun _ =>
      .bind (publishReady_triple hstate.running rfl (Nat.lt_succ_self _) hgenuine)
        fun closed => .pure fun session' htook => ?_
    · rw [insertPending_next hstate.settled rfl (Nat.zero_le _)] at herror
      cases herror
    · have hstage := hstate.toStage.grow htook.running htook.last_le htook.has true fun _ =>
        ⟨fun _ => .inr ⟨hexit, by omega⟩, fun _ => rfl⟩
      refine ⟨⟨hstage, htook.settled, ?_, ?_⟩, fun _ => .inl rfl⟩
      · exact fun other hother => (htook.has _).mpr (.inl (hstate.done_has other hother))
      · exact fun hcomplete other hother =>
          Nat.le_trans (hstate.done_le hcomplete other hother) htook.last_le
  · refine .pure ?_
    rintro session' rfl
    refine ⟨hstate, fun hexited => ?_⟩
    by_contra hneither
    rw [not_or, Nat.not_le] at hneither
    exact hcond ⟨hexited, by simpa using hneither.1, hneither.2⟩

theorem recoverOutput_triple (hchunks : response.chunks = done ++ chunk :: rest) :
    Triple (fun session => Recovering trace response start done recovered session ∧
        (response.exited → recovered.exitKnown = true ∨ chunk.seq ≤ session.lastPublishedSeq + 1))
      (recoverOutput recovered chunk)
      (Recovering trace response start (done ++ [chunk]))
      (fun _ => Broken trace response start) := by
  have hchunk : chunk ∈ response.chunks := hchunks ▸ by simp
  obtain ⟨hevent, -, hle⟩ := h.mem_events hchunk
  refine .read ?_
  rintro session ⟨hstate, hexit⟩
  split_ifs with hlast
  · refine .bind (insertPending_triple (fun _ hok => hok) fun error herror => ?_) fun _ =>
      .bind (publishReady_triple hstate.running rfl hlast (.of_mem hevent))
        fun closed => .pure fun session' htook => ?_
    · refine ⟨hstate.running, hstate.settled, fun hcomplete => ?_⟩
      have hnext := seq_eq_of_complete h hchunks hstate hexit hcomplete hlast
      have hsize : chunk.length ≤ maxPendingProcessEventBytes :=
        Nat.le_trans (Budget.le_total_of_mem _ hchunk) h.retained.2
      have hok : session.insertPending (.output chunk) = .ok _ :=
        insertPending_next hstate.settled (congrArg some hnext) hsize
      rw [hok] at herror
      cases herror
    · have hnotExit : ¬ ExitAt trace chunk.seq := fun hexitAt =>
        hexitAt.not_outputAt ⟨chunk, hevent, rfl⟩
      have hstage := hstate.toStage.grow htook.running htook.last_le htook.has
        recovered.exitKnown fun _ =>
        ⟨.inl, fun hor => hor.resolve_right fun hexitAt => hnotExit hexitAt.1⟩
      refine ⟨hstage, htook.settled, ?_, ?_⟩
      · rw [forall_mem_append, forall_mem_singleton]
        exact ⟨fun other hdone => (htook.has _).mpr (.inl (hstate.done_has other hdone)),
          (htook.has _).mpr (.inr rfl)⟩
      · intro hcomplete other hother
        rcases mem_append.mp hother with hdone | hnew
        · exact Nat.le_trans (hstate.done_le hcomplete other hdone) htook.last_le
        · have hnext := seq_eq_of_complete h hchunks hstate hexit hcomplete hlast
          rw [hnext] at htook
          rw [mem_singleton.mp hnew, hnext]
          exact htook.published
  · refine .pure ?_
    rintro session' rfl
    refine ⟨hstate.toStage, hstate.settled, ?_, ?_⟩
    · rw [forall_mem_append, forall_mem_singleton]
      exact ⟨hstate.done_has, .inl (Nat.le_of_not_lt hlast)⟩
    · intro hcomplete
      rw [forall_mem_append, forall_mem_singleton]
      exact ⟨hstate.done_le hcomplete, Nat.le_of_not_lt hlast⟩

theorem recoverChunks_triple (hplaced : Placed trace response start) (recovered : Recovered) :
    Triple (Recovering trace response start [] recovered)
      (response.chunks.foldlM (recoverChunk response (targetSeq response)) recovered)
      (Recovering trace response start response.chunks)
      (fun _ => Broken trace response start) := by
  refine Triple.foldlM_split (I := Recovering trace response start) ?_ recovered
  intro done chunk rest recovered hchunks
  obtain ⟨-, -, hle⟩ := h.mem_events (hchunks ▸ by simp : chunk ∈ response.chunks)
  rw [recoverChunk, if_neg (Nat.not_lt_of_le hle)]
  exact .bind (recoverGap_triple h hplaced hchunks) fun _ => recoverOutput_triple h hchunks

/-! ## The close and the exit at the end -/

/-- If no output is missing, only the exit and the close may be unpublished when all chunks are
done. -/
theorem kind_of_complete (hstage : Stage trace response start exitKnown session)
    (hle : ∀ other ∈ response.chunks, other.seq ≤ session.lastPublishedSeq)
    (hcomplete : Complete trace response start.lastPublishedSeq) {seq : ℕ}
    (hlast : session.lastPublishedSeq < seq) (htarget : seq ≤ targetSeq response) :
    ExitAt trace seq ∨ .closed seq ∈ trace.events := by
  have hstart := hstage.last_le
  refine (kind_of_seq trace (by omega) (Nat.le_trans htarget h.target_le)).resolve_left ?_
  rintro ⟨other, hother, rfl⟩
  have hmem := hcomplete other (mem_outputs_take.mpr ⟨hother, htarget⟩) (by omega)
  have := hle other hmem
  omega

/-- What holds when the close was recovered. -/
structure Closing (trace : Trace) (response : ReadResponse) (start : SessionState)
    (exitKnown : Bool) (session : SessionState) : Prop extends
    Stage trace response start exitKnown session where
  chunks_le : Complete trace response start.lastPublishedSeq →
    ∀ other ∈ response.chunks, other.seq ≤ session.lastPublishedSeq
  closed_has : .closed (targetSeq response) ∈ trace.events → Has session (targetSeq response)
  next : (session.pending.get (session.lastPublishedSeq + 1)).isSome →
    session.lastPublishedSeq + 1 = targetSeq response

omit h in
/-- As long as a number is missing, the next event has not come. -/
theorem Closing.settled_of_missing {exitKnown : Bool}
    (hstate : Closing trace response start exitKnown session) {seq : ℕ}
    (hlast : session.lastPublishedSeq < seq) (htarget : seq ≤ targetSeq response)
    (hnone : session.pending.get seq = none) : Settled session := by
  by_contra hsome
  have hsame := hstate.next (Option.isSome_iff_ne_none.mpr hsome)
  have hseq : seq = session.lastPublishedSeq + 1 := by omega
  rw [hseq] at hnone
  exact hsome hnone

omit h in
/-- A session that keeps nothing can take any event of a moderate size. -/
theorem insertPending_of_empty (hrunning : Running trace session)
    (hempty : ∀ seq, session.pending.get seq = none) {event : ExecProcessEvent} {seq : ℕ}
    (hseq : event.seq = some seq)
    (hsize : pendingProcessEventBytes event ≤ maxPendingProcessEventBytes) :
    session.insertPending event = .ok (session.keep seq event) := by
  have hentries : session.pending.entries = [] :=
    List.isEmpty_iff.mp (isEmpty_iff.mpr hempty)
  have hbytes : session.pendingBytes = 0 := by
    rw [hrunning.pendingBytes, total, hentries]
    rfl
  rw [SessionState.insertPending, hseq]
  dsimp only
  have hfew : ¬ maxPendingProcessEvents ≤ ([] : List (ℕ × ExecProcessEvent)).length := by decide
  rw [hempty, hentries, hbytes, Nat.zero_add, if_neg (by simp), if_neg fun hover => hfew hover.2,
    if_neg (Nat.not_lt_of_le hsize), if_neg fun hover => Nat.not_lt_of_le hsize hover.2]
  rw [SessionState.keep, hbytes, Nat.zero_add]

/-- If no output is missing, nothing is kept when the close is recovered. -/
theorem pending_empty_of_complete
    (hstate : Recovering trace response start response.chunks recovered session)
    (hcomplete : Complete trace response start.lastPublishedSeq)
    (hclosed : .closed (targetSeq response) ∈ trace.events)
    (hnone : session.pending.get (targetSeq response) = none) (seq : ℕ) :
    session.pending.get seq = none := by
  by_contra hsome
  obtain ⟨event, hget⟩ := Option.ne_none_iff_exists'.mp hsome
  obtain ⟨hlast, hseq, hgenuine⟩ := hstate.running.pending seq event hget
  obtain ⟨actual, -, hactual, -⟩ := hgenuine.actual hseq
  have hlength := eq_length_of_closed hclosed
  have hlt := (List.getElem?_eq_some_iff.mp hactual).1
  have hne : seq ≠ targetSeq response := by
    rintro rfl
    exact hsome hnone
  have hnext : seq ≠ session.lastPublishedSeq + 1 := by
    rintro rfl
    exact hsome hstate.settled
  -- both this number and the next one would be that of the exit
  have hexit : ∀ other, session.lastPublishedSeq < other → other < targetSeq response →
      ExitAt trace other := by
    intro other hother htarget
    refine (kind_of_complete h hstate.toStage (hstate.done_le hcomplete) hcomplete hother
      (by omega)).resolve_right fun hclosed' => ?_
    have := eq_length_of_closed hclosed'
    omega
  exact hnext ((hexit seq hlast (by omega)).unique (hexit _ (Nat.lt_succ_self _) (by omega)))

theorem recoverClosed_triple :
    Triple (Recovering trace response start response.chunks recovered)
      (recoverClosed response (targetSeq response))
      (fun _ => Closing trace response start recovered.exitKnown)
      (fun _ => Broken trace response start) := by
  refine .read fun session hstate => ?_
  have hnext : (session.pending.get (session.lastPublishedSeq + 1)).isSome →
      session.lastPublishedSeq + 1 = targetSeq response := by
    rw [hstate.settled]
    exact fun hsome => by cases hsome
  split_ifs with hcond
  · obtain ⟨hresponse, hunpublished, hunpending⟩ := hcond
    have hclosed := h.closed_iff.mp hresponse
    have hlast : session.lastPublishedSeq < targetSeq response := by
      by_contra hle
      rw [hstate.running.closedPublished, Bool.not_eq_true', any_eq_false] at hunpublished
      exact hunpublished _ ((mem_take_of_seq hclosed rfl).mpr (Nat.le_of_not_lt hle)) rfl
    refine insertPending_triple (fun session' hok => ?_) fun error herror => ?_
    · rcases @insertPending_eq session (.closed (targetSeq response)) _ rfl with
        ⟨hkept, hsame⟩ | ⟨hnew, hkeep | ⟨error, herror⟩⟩
      · rw [hsame] at hok
        cases hok
        exact ⟨hstate.toStage, hstate.done_le, fun _ => .inr hkept, hnext⟩
      · rw [hkeep] at hok
        cases hok
        have hnotExit : ¬ ExitAt trace (targetSeq response) := fun hexit =>
          hexit.ne_length_of_closed hclosed rfl
        have hstage := hstate.toStage.grow (hstate.running.keep hnew hlast rfl (.of_mem hclosed))
          (Nat.le_refl _) (fun _ => has_keep) recovered.exitKnown fun _ =>
          ⟨.inl, fun hor => hor.resolve_right fun hexit => hnotExit hexit.1⟩
        refine ⟨hstage, hstate.done_le, fun _ => has_keep.mpr (.inr rfl), fun hsome => ?_⟩
        by_contra hne
        rw [get_keep, if_neg hne] at hsome
        exact hne (hnext hsome)
      · rw [herror] at hok
        cases hok
    · refine ⟨hstate.running, hstate.settled, fun hcomplete => ?_⟩
      have hnone : session.pending.get (targetSeq response) = none := by
        rcases @insertPending_eq session (.closed (targetSeq response)) _ rfl with
          ⟨-, hsame⟩ | ⟨hnew, -⟩
        · rw [hsame] at herror
          cases herror
        · exact hnew
      have hempty := pending_empty_of_complete h hstate hcomplete hclosed hnone
      have hok := insertPending_of_empty hstate.running hempty
        (show (closed (targetSeq response)).seq = some _ from rfl) (Nat.zero_le _)
      rw [hok] at herror
      cases herror
  · refine .pure ?_
    rintro session' rfl
    refine ⟨hstate.toStage, hstate.done_le, fun hclosed => ?_, hnext⟩
    by_contra hhas
    refine hcond ⟨h.closed_iff.mpr hclosed, ?_, ?_⟩
    · rw [Bool.not_eq_true', Bool.eq_false_iff]
      exact fun hpublished =>
        hhas (.inl (h.target_le_of_closedPublished hstate.running hpublished))
    · cases hget : session'.pending.get (targetSeq response) with
      | none => rfl
      | some event => exact absurd (.inr (by rw [hget]; rfl)) hhas

omit h in
theorem mem_retainedSeqs {target seq : ℕ} : seq ∈ session.retainedSeqs target ↔
    (session.lastPublishedSeq < seq ∧ seq ≤ target) ∧ (session.pending.get seq).isSome := by
  rw [SessionState.retainedSeqs, mem_filter, mem_map, decide_eq_true_eq, and_comm]
  refine and_congr_right fun _ => ?_
  constructor
  · rintro ⟨⟨seq, event⟩, hentry, rfl⟩
    rw [get_eq_some_iff.mpr hentry]
    rfl
  · intro hsome
    obtain ⟨event, hget⟩ := Option.isSome_iff_exists.mp hsome
    exact ⟨(seq, event), get_eq_some_iff.mp hget, rfl⟩

omit h in
theorem pairwise_retainedSeqs (session : SessionState) (target : ℕ) :
    (session.retainedSeqs target).Pairwise (· < ·) :=
  (pairwise_map.mpr session.pending.sorted).filter _

omit h in
/-- The missing numbers are those that are neither published nor kept. -/
theorem missingCount_eq (session : SessionState) (target : ℕ) :
    session.missingCount target = ((Finset.Ioc session.lastPublishedSeq target).filter
      fun seq => session.pending.get seq = none).card := by
  have hretained : (session.retainedSeqs target).toFinset =
      (Finset.Ioc session.lastPublishedSeq target).filter
        fun seq => ¬ session.pending.get seq = none := by
    ext seq
    rw [mem_toFinset, mem_retainedSeqs, Finset.mem_filter, Finset.mem_Ioc,
      Option.isSome_iff_ne_none]
  have hnodup : (session.retainedSeqs target).Nodup :=
    (pairwise_retainedSeqs session target).imp fun hlt => Nat.ne_of_lt hlt
  have hcard := congrArg Finset.card hretained
  rw [toFinset_card_of_nodup hnodup] at hcard
  have hsum := Finset.card_filter_add_card_filter_not (s := Finset.Ioc session.lastPublishedSeq target)
    fun seq => session.pending.get seq = none
  rw [Nat.card_Ioc] at hsum
  rw [SessionState.missingCount]
  omega

omit h in
/-- The first gap of an ordered list of numbers. -/
theorem firstGap_spec (expected : ℕ) (seqs : List ℕ) (hsorted : seqs.Pairwise (· < ·))
    (hle : ∀ seq ∈ seqs, expected ≤ seq) :
    expected ≤ firstGap expected seqs ∧ firstGap expected seqs ∉ seqs ∧
      ∀ seq, expected ≤ seq → seq < firstGap expected seqs → seq ∈ seqs := by
  induction seqs generalizing expected with
  | nil => exact ⟨Nat.le_refl _, not_mem_nil, fun seq hge hlt => by rw [firstGap] at hlt; omega⟩
  | cons first seqs ih =>
    obtain ⟨hfirst, hrest⟩ := pairwise_cons.mp hsorted
    rw [firstGap]
    split_ifs with hne
    · refine ⟨Nat.le_refl _, fun hmem => ?_, fun seq hge hlt => by omega⟩
      have hge := hle first mem_cons_self
      rcases mem_cons.mp hmem with heq | hmem
      · exact hne heq.symm
      · have := hfirst expected hmem
        omega
    · rw [not_not] at hne
      obtain ⟨hge, hnot, hall⟩ := ih (expected + 1) hrest fun seq hseq => by
        have := hfirst seq hseq
        omega
      refine ⟨by omega, fun hmem => ?_, fun seq hseq hlt => ?_⟩
      · rcases mem_cons.mp hmem with heq | hmem
        · omega
        · exact hnot hmem
      · rcases Nat.eq_or_lt_of_le hseq with rfl | hlater
        · exact hne ▸ mem_cons_self
        · exact mem_cons_of_mem _ (hall seq hlater hlt)

omit h in
/-- If one number is missing, it is found. -/
theorem firstMissingSeq_eq {target seq : ℕ} (hlast : session.lastPublishedSeq < seq)
    (htarget : seq ≤ target) (hnone : session.pending.get seq = none)
    (honly : ∀ other, session.lastPublishedSeq < other → other ≤ target → other ≠ seq →
      (session.pending.get other).isSome) : firstMissingSeq session target = seq := by
  obtain ⟨hge, hnot, hall⟩ := firstGap_spec (session.lastPublishedSeq + 1)
    (session.retainedSeqs target) (pairwise_retainedSeqs session target)
    fun other hother => (mem_retainedSeqs.mp hother).1.1
  have hle : firstMissingSeq session target ≤ seq := by
    by_contra hlt
    have hmem := hall seq hlast (Nat.lt_of_not_le hlt)
    rw [mem_retainedSeqs, hnone] at hmem
    cases hmem.2
  by_contra hne
  exact hnot (mem_retainedSeqs.mpr ⟨⟨hge, Nat.le_trans hle htarget⟩,
    honly _ hge (Nat.le_trans hle htarget) hne⟩)

/-- If no output is missing, nothing is missing but the exit, unless that is known. -/
theorem isSome_of_complete (hstate : Closing trace response start exitKnown session)
    (hcomplete : Complete trace response start.lastPublishedSeq) {seq : ℕ}
    (hlast : session.lastPublishedSeq < seq) (htarget : seq ≤ targetSeq response)
    (hexit : ExitAt trace seq → ExitKnown trace response session) :
    (session.pending.get seq).isSome := by
  have hhas : Has session seq := by
    rcases kind_of_complete h hstate.toStage (hstate.chunks_le hcomplete) hcomplete hlast htarget with
      hexitAt | hclosed
    · obtain ⟨seq', -, hexitAt', hhas⟩ := hexit hexitAt
      rwa [hexitAt'.unique hexitAt] at hhas
    · have hsame : seq = targetSeq response := by
        have := eq_length_of_closed hclosed
        have := h.target_le
        omega
      rw [hsame] at hclosed ⊢
      exact hstate.closed_has hclosed
  exact hhas.resolve_left (Nat.not_le_of_lt hlast)

/-- The session has everything up to the target. -/
def Reached (trace : Trace) (response : ReadResponse) (session : SessionState) : Prop :=
  Running trace session ∧ ∀ seq ≤ targetSeq response, Has session seq

omit h in
theorem missingCount_eq_zero_iff {target : ℕ} : session.missingCount target = 0 ↔
    ∀ seq, session.lastPublishedSeq < seq → seq ≤ target → (session.pending.get seq).isSome := by
  rw [missingCount_eq, Finset.card_eq_zero, Finset.filter_eq_empty_iff]
  simp only [Finset.mem_Ioc, and_imp, Option.isSome_iff_ne_none, ne_eq]

omit h in
theorem missingCount_eq_one_iff {target seq : ℕ} (hlast : session.lastPublishedSeq < seq)
    (htarget : seq ≤ target) (hnone : session.pending.get seq = none) :
    session.missingCount target = 1 ↔ ∀ other, session.lastPublishedSeq < other →
      other ≤ target → other ≠ seq → (session.pending.get other).isSome := by
  have hmem : ∀ other, other ∈ (Finset.Ioc session.lastPublishedSeq target).filter
      (fun seq => session.pending.get seq = none) ↔ (session.lastPublishedSeq < other ∧
        other ≤ target) ∧ session.pending.get other = none := by simp
  have hseq := (hmem seq).mpr ⟨⟨hlast, htarget⟩, hnone⟩
  rw [missingCount_eq, Finset.card_eq_one]
  constructor
  · rintro ⟨missing, hmissing⟩ other hother hle hne
    simp only [hmissing, Finset.mem_singleton] at hmem hseq
    rw [Option.isSome_iff_ne_none]
    exact fun hget => hne (((hmem other).mpr ⟨⟨hother, hle⟩, hget⟩).trans hseq.symm)
  · refine fun honly => ⟨seq, Finset.eq_singleton_iff_unique_mem.mpr ⟨hseq, fun other hother => ?_⟩⟩
    obtain ⟨⟨hlast, hle⟩, hget⟩ := (hmem other).mp hother
    by_contra hne
    simpa [hget] using honly other hlast hle hne

/-- An exit that is not known is missing. -/
theorem Stage.exists_missing_exit (hstage : Stage trace response start exitKnown session)
    (hexited : response.exited) (hunknown : !exitKnown) :
    ∃ seq ≤ targetSeq response, ExitAt trace seq ∧ session.lastPublishedSeq < seq ∧
      session.pending.get seq = none := by
  obtain ⟨seq, hle, hexit⟩ := h.exited_iff.mp hexited
  have hnotKnown : ¬ ExitKnown trace response session := by
    rw [← hstage.known hexited]
    simpa using hunknown
  have hnotHas : ¬ Has session seq := fun hhas => hnotKnown ⟨seq, hle, hexit, hhas⟩
  rw [Has, not_or, Nat.not_le, Option.not_isSome_iff_eq_none] at hnotHas
  exact ⟨seq, hle, hexit, hnotHas⟩

theorem recoverExit_triple :
    Triple (Closing trace response start exitKnown)
      (recoverExit response (targetSeq response) exitKnown)
      (fun _ => Reached trace response) (fun _ => Broken trace response start) := by
  refine .read fun session hstate => ?_
  split_ifs with hcond hmissing hmissing
  · -- more or less than one number is missing
    obtain ⟨hexited, hunknown⟩ := hcond
    refine .throw ?_
    rintro session' rfl
    obtain ⟨seq, hle, hexit, hlast, hnone⟩ := hstate.toStage.exists_missing_exit h hexited hunknown
    refine ⟨hstate.running, hstate.settled_of_missing hlast hle hnone, fun hcomplete => hmissing ?_⟩
    refine (missingCount_eq_one_iff hlast hle hnone).mpr fun other hother htarget hne => ?_
    exact isSome_of_complete h hstate hcomplete hother htarget fun hexit' =>
      absurd (hexit'.unique hexit) hne
  · -- the one that is missing is the exit, and it is next
    obtain ⟨hexited, hunknown⟩ := hcond
    obtain ⟨seq, hle, hexit, hlast, hnone⟩ := hstate.toStage.exists_missing_exit h hexited hunknown
    have honly := (missingCount_eq_one_iff hlast hle hnone).mp (not_not.mp hmissing)
    have hnext : seq = session.lastPublishedSeq + 1 := by
      by_contra hne
      have hsame := hstate.next (honly _ (Nat.lt_succ_self _) (by omega) (Ne.symm hne))
      omega
    obtain ⟨exitCode, hcode, hgenuine⟩ :=
      h.exists_exitCode hexit hle (some response.sandboxDenied)
    rw [firstMissingSeq_eq hlast hle hnone honly, insertExit, hcode]
    have hsettled : Settled session := by
      rw [Settled, ← hnext]
      exact hnone
    have hok := insertPending_next hsettled (show (exited
      (session.lastPublishedSeq + 1) exitCode (some response.sandboxDenied)).seq = _ from rfl)
      (Nat.zero_le _)
    rw [← hnext] at hok
    refine insertPending_triple (fun session' hinsert => ?_) fun error herror => ?_
    · rw [hok] at hinsert
      cases hinsert
      refine ⟨hstate.running.keep hnone hlast rfl hgenuine, fun other hother => has_keep.mpr ?_⟩
      by_cases hsame : other = seq
      · exact .inr hsame
      · refine .inl ?_
        rcases Nat.lt_or_ge session.lastPublishedSeq other with hlater | hpast
        · exact .inr (honly other hlater hother hsame)
        · exact .inl hpast
    · rw [hok] at herror
      cases herror
  · refine .throw ?_
    rintro session' rfl
    rw [ne_eq, missingCount_eq_zero_iff] at hmissing
    have hsettled : Settled session' := by
      push Not at hmissing
      obtain ⟨seq, hlast, htarget, hnone⟩ := hmissing
      exact hstate.settled_of_missing hlast htarget (Option.not_isSome_iff_eq_none.mp hnone)
    refine ⟨hstate.running, hsettled, fun hcomplete => hmissing fun seq hlast htarget => ?_⟩
    refine isSome_of_complete h hstate hcomplete hlast htarget fun hexit => ?_
    have hexited := h.exited_iff.mpr ⟨seq, htarget, hexit⟩
    rw [← hstate.known hexited]
    by_contra hunknown
    exact hcond ⟨hexited, by simpa using hunknown⟩
  · -- nothing is missing
    refine .pure ?_
    rintro session' rfl
    refine ⟨hstate.running, fun seq htarget => ?_⟩
    rcases Nat.lt_or_ge session'.lastPublishedSeq seq with hlater | hpast
    · exact .inr (missingCount_eq_zero_iff.mp (not_not.mp hmissing) seq hlater htarget)
    · exact .inl hpast

end Loop

/-! ## The whole recovery -/

section Whole

variable {trace : Trace} {response : ReadResponse} {session : SessionState}

theorem markPendingExit_spec (hrunning : Running trace session) (target : ℕ) (denied : Bool) :
    Running trace (markPendingExit session target denied).2 ∧
      (markPendingExit session target denied).2.lastPublishedSeq = session.lastPublishedSeq ∧
      (∀ seq, Has (markPendingExit session target denied).2 seq ↔ Has session seq) ∧
      ((markPendingExit session target denied).1 = true ↔
        ∃ seq event, session.pending.get seq = some event ∧ seq ≤ target ∧ event.isExited) := by
  rw [markPendingExit]
  cases hfind : session.pending.entries.find? fun entry =>
      entry.1 ≤ target ∧ entry.2.isExited with
  | none =>
    refine ⟨hrunning, rfl, fun _ => Iff.rfl, (fun hfalse => by cases hfalse), ?_⟩
    rintro ⟨seq, event, hget, hle, hexited⟩
    have hnone := find?_eq_none.mp hfind _ (get_eq_some_iff.mp hget)
    rw [decide_eq_true_eq] at hnone
    exact absurd ⟨hle, hexited⟩ hnone
  | some entry =>
    obtain ⟨seq, event⟩ := entry
    have hget := get_eq_some_iff.mpr (mem_of_find?_eq_some hfind)
    have hfound := find?_some hfind
    simp only [decide_eq_true_eq] at hfound
    cases event with
    | exited seq' exitCode flag =>
      have herase : ∀ marked, (session.pending.insert seq marked).erase seq =
          session.pending.erase seq := by
        refine fun marked => ext_get fun other => ?_
        rw [get_erase, get_erase, get_insert]
        split_ifs <;> rfl
      refine ⟨⟨hrunning.failure, hrunning.last_le, hrunning.events, hrunning.exitPublished,
        hrunning.closedPublished, fun other event hget' => ?_, ?_⟩, rfl, fun other => ?_,
        fun _ => ⟨seq, _, hget, hfound.1, rfl⟩, fun _ => rfl⟩
      · rw [get_insert] at hget'
        split_ifs at hget' with heq
        · cases hget'
          exact heq ▸ hrunning.pending seq _ hget
        · exact hrunning.pending other event hget'
      · rw [hrunning.pendingBytes, total_erase _ hget,
          total_erase _ (get_insert.trans (if_pos rfl)), herase]
        rfl
      · rw [Has, Has, get_insert]
        split_ifs with heq
        · rw [heq, hget]
          rfl
        · rfl
    | output chunk => cases hfound.2
    | closed seq' => cases hfound.2
    | failed message => cases hfound.2

/-- The exit is published or pending. -/
theorem exitKnown_iff (hrunning : Running trace session)
    (hlast : session.lastPublishedSeq < targetSeq response) :
    ExitKnown trace response session ↔ session.exitPublished = true ∨
      ∃ seq event, session.pending.get seq = some event ∧ seq ≤ targetSeq response ∧
        event.isExited := by
  rw [hrunning.exitPublished, any_eq_true]
  constructor
  · rintro ⟨seq, hle, ⟨exit, hexit, hexited, hseq⟩, hpast | hsome⟩
    · exact .inl ⟨exit, (mem_take_of_seq hexit hseq).mpr hpast, hexited⟩
    · obtain ⟨event, hget⟩ := Option.isSome_iff_exists.mp hsome
      obtain ⟨-, hseq', actual, hactual, hsame⟩ := hrunning.pending seq event hget
      have hnumber : actual.seq = some seq := by rw [← seq_unflagged, ← hsame, seq_unflagged, hseq']
      refine .inr ⟨seq, event, hget, hle, ?_⟩
      rw [← isExited_unflagged, hsame, isExited_unflagged, eq_of_seq hactual hexit hnumber hseq]
      exact hexited
  · rintro (⟨exit, hmem, hexited⟩ | ⟨seq, event, hget, hle, hexited⟩)
    · have hexit := mem_of_mem_take hmem
      obtain ⟨seq, hseq⟩ := (Genuine.of_mem hexit).seq_isSome
      have hpast := (mem_take_of_seq hexit hseq).mp hmem
      exact ⟨seq, by omega, ⟨exit, hexit, hexited, hseq⟩, .inl hpast⟩
    · obtain ⟨-, hseq, actual, hactual, hsame⟩ := hrunning.pending seq event hget
      refine ⟨seq, hle, ⟨actual, hactual, ?_, ?_⟩, .inr (by rw [hget]; rfl)⟩
      · rw [← isExited_unflagged, ← hsame, isExited_unflagged]
        exact hexited
      · rw [← seq_unflagged, ← hsame, seq_unflagged, hseq]

/-- The response and the session have no other event at the number of the close. -/
theorem checkClose_triple (h : Describes trace response) {P : SessionState → Prop}
    (hrunning : ∀ session, P session → Running trace session)
    {E : SessionError → SessionState → Prop} :
    Triple P (checkClose response (targetSeq response)) (fun _ => P) E := by
  refine .read fun session hP => ?_
  rw [if_neg]
  · exact .pure fun _ hsame => hsame ▸ hP
  · rintro ⟨hresponse, hconflict⟩
    have hclosed := h.closed_iff.mp hresponse
    rcases hconflict with hpending | hchunks
    · obtain ⟨event, hget, hopen⟩ := Option.any_eq_true _ _ |>.mp hpending
      obtain ⟨-, hseq, actual, hactual, hsame⟩ := (hrunning session hP).pending _ event hget
      have hnumber : actual.seq = some (targetSeq response) := by
        rw [← seq_unflagged, ← hsame, seq_unflagged, hseq]
      rw [← isClosed_unflagged, hsame, eq_of_seq hactual hclosed hnumber rfl] at hopen
      cases hopen
    · obtain ⟨chunk, hchunk, hseq⟩ := any_eq_true.mp hchunks
      obtain ⟨hevent, -, -⟩ := h.mem_events hchunk
      have hnumber : (output chunk).seq = some (targetSeq response) :=
        congrArg some (of_decide_eq_true hseq)
      cases eq_of_seq hevent hclosed hnumber rfl

theorem recoverTo_triple (h : Describes trace response) {start : SessionState}
    (hrunning : Running trace start) (hsettled : Settled start)
    (hlast : start.lastPublishedSeq < targetSeq response) (hplaced : Placed trace response start) :
    Triple (· = start) (recoverTo response (targetSeq response))
      (fun _ session => Running trace session ∧ Settled session ∧
        targetSeq response ≤ session.lastPublishedSeq)
      (fun _ => Broken trace response start) := by
  obtain ⟨hmarked, hmarkedLast, hhas, hpending⟩ :=
    markPendingExit_spec hrunning (targetSeq response) response.sandboxDenied
  refine .read fun session hsession => ?_
  subst hsession
  refine .bind (Q := fun exitPending => Recovering trace response session []
    ⟨session.exitPublished || exitPending, false⟩) (.step ?_) fun exitPending => ?_
  · rintro session' rfl
    refine ⟨⟨hmarked, Nat.le_of_eq hmarkedLast.symm, fun seq => (hhas seq).mpr, fun _ => ?_⟩, ?_,
      (fun _ hmem => by cases hmem), (fun _ _ hmem => by cases hmem)⟩
    · have hknown : ExitKnown trace response (markPendingExit session' (targetSeq response)
          response.sandboxDenied).2 ↔ ExitKnown trace response session' :=
        exists_congr fun seq => and_congr_right fun _ => and_congr_right fun _ => hhas seq
      rw [hknown, exitKnown_iff hrunning hlast, Bool.or_eq_true, hpending]
    · have hnot := hsettled.not_has
      rw [← hhas, ← hmarkedLast, Has, not_or, Option.not_isSome_iff_eq_none] at hnot
      exact hnot.2
  · refine .bind (checkClose_triple h fun session' hstate => hstate.running) fun _ => ?_
    refine .bind (recoverChunks_triple h hplaced _) fun recovered => ?_
    refine .bind (recoverClosed_triple h) fun _ => ?_
    refine .bind (recoverExit_triple h) fun _ => ?_
    refine .bind (Q := fun _ session' => Running trace session' ∧ Settled session' ∧
      targetSeq response ≤ session'.lastPublishedSeq) (.step ?_) fun closed =>
      .pure fun _ hend => hend
    rintro session' ⟨hreached, hall⟩
    refine ⟨hreached.publishReady, settled_publishReady _, ?_⟩
    by_contra hlt
    have hnext := (publishReady_advance session').has (session'.publishReady.2.lastPublishedSeq + 1)
    exact (settled_publishReady session').not_has (hnext.mpr (hall _ (by omega)))

end Whole

end Codex.ExecServer
