import Codex.Readiness.Flag

/-!
# Waiting for the readiness flag

What holds of a flag along every run of its calls: there is one way to become ready, it is taken
once, and the call that takes it announces it once.  A `wait_ready` that is scheduled again and
again returns after that, unless it found the flag unset and the announcement came, to nobody,
before it had a receiver.

`dependable_iff` puts the two together: `safe` holds in every run, and all waiters return exactly
if the announcement is heard (`waitersReturn_of_heard`, `heard_of_waitersReturn`).  `wakeup_lost`
is a fair schedule in which it is not.
-/

namespace Codex.Readiness

open Output List

/-! ## Runs -/

section Runs

variable (schedule : ℕ → Event)

def stateAt (n : ℕ) : State := Run.along State.next .start schedule n

def outputsUpTo (n : ℕ) : List Output := Run.outputs State.next .start ((List.range n).map schedule)

/-- What the step at that moment puts out. -/
def outputsAt (n : ℕ) : List Output := ((stateAt schedule n).next (schedule n)).2

/-- The call is scheduled again and again. -/
def Often (id : ℕ) : Prop := ∀ n, ∃ m ≥ n, schedule m = .step id

end Runs

/-- The call is a `wait_ready`. -/
def Pc.waits : Pc → Bool
  | .isReady waiting _ => waiting
  | .waitReady _ => true
  | .unused | .subscribe _ | .markReady _ | .returned => false

/-- At most one `mark_ready` succeeds, readiness is not revoked and no token is given out after
it. -/
structure Safe (schedule : ℕ → Event) : Prop where
  marked_once : ∀ n, (outputsUpTo schedule n).countP isMark ≤ 1
  never_revoked : ∀ m n, m ≤ n → (stateAt schedule m).flag.ready = true →
    (stateAt schedule n).flag.ready = true
  stays_ready : ∀ n id, (stateAt schedule n).flag.ready = true →
    .isReady id false ∉ outputsAt schedule n
  no_late_token : ∀ n id token, (stateAt schedule n).flag.ready = true →
    .subscribed id (some token) ∉ outputsAt schedule n

/-- Once the flag is ready, every `wait_ready` that is scheduled often enough returns, if the call
that has set the flag is scheduled as well. -/
def WaitersReturn (schedule : ℕ → Event) : Prop :=
  ∀ n id, (stateAt schedule n).flag.ready = true → ((stateAt schedule n).calls id).waits = true →
    Often schedule id →
    (∀ other, ((stateAt schedule n).calls other).isSetting = true → Often schedule other) →
    ∃ m ≥ n, (stateAt schedule m).calls id = .returned

/-- When the flag is announced somebody has a receiver, or no `wait_ready` that goes on is on its
way from `is_ready` to its receiver. -/
def Heard (schedule : ℕ → Event) : Prop :=
  ∀ n caller id, schedule n = .step caller →
    ((stateAt schedule n).calls caller).isSending = true → (stateAt schedule n).flag.receivers = ∅ →
    (stateAt schedule n).calls id = .waitReady .subscribe → ¬Often schedule id

/-! ## What holds along every run -/

/-- How far the flag is, with the number of announcements so far. -/
inductive Announcement (state : State) (announced : ℕ) : Prop where
  | unset (hready : state.flag.ready = false) (hsetting : ∀ id, (state.calls id).isSetting = false)
      (hcount : announced = 0)
  | due (id : ℕ) (hready : state.flag.ready = true)
      (hsetting : ∀ other, (state.calls other).isSetting = true ↔ other = id)
      (hcount : announced = 0)
  | done (hready : state.flag.ready = true) (hsetting : ∀ id, (state.calls id).isSetting = false)
      (hcount : announced = 1)

structure Consistent (state : State) (outputs : List Output) : Prop where
  fits : ∀ id, Fits state.flag id (state.calls id)
  settled : state.flag.ready = true →
    state.flag.tokens = ∅ ∨ ∃ id, state.calls id = .markReady .clear
  announcement : Announcement state (outputs.countP isAnnouncement)
  marked : outputs.countP isMark ≤ outputs.countP isAnnouncement
  value : state.flag.value = true → 0 < outputs.countP isAnnouncement

theorem consistent_start : Consistent .start [] where
  fits id := ⟨by simp [State.start, ReadinessFlag.new], by simp [State.start, ReadinessFlag.new],
    by simp [State.start], by simp [State.start], trivial⟩
  settled h := by simp [State.start, ReadinessFlag.new] at h
  announcement := .unset rfl (fun _ => rfl) rfl
  marked := le_rfl
  value h := by simp [State.start, ReadinessFlag.new] at h

section Step

variable {state : State} {outputs : List Output} {id : ℕ}

theorem Consistent.settled_of_lock (hstate : Consistent state outputs)
    (hlock : state.flag.lock = some id) : Settled state.flag (state.calls id) := by
  intro hready
  rcases hstate.settled hready with hnone | ⟨other, hclear⟩
  · exact .inl hnone
  · have hholds : state.flag.lock = some other := (hstate.fits other).lock.mp (by simp [hclear])
    obtain rfl : id = other := Option.some.inj (hlock.symm.trans hholds)
    exact .inr hclear

theorem Consistent.readying (hstate : Consistent state outputs) (id : ℕ) :
    Readying state.flag (state.calls id) (advance state.flag id (state.calls id)) :=
  readying_advance (hstate.fits id)

theorem isSetting_update (calls : ℕ → Pc) (pc : Pc) (other : ℕ) :
    (Function.update calls id pc other).isSetting =
      if other = id then pc.isSetting else (calls other).isSetting := by
  by_cases hother : other = id
  · simp [hother]
  · simp [hother]

/-- An operation brings the announcement forward, if at all. -/
theorem Readying.announcement {move : Move} {announced : ℕ}
    (hreadying : Readying state.flag (state.calls id) move)
    (hannouncement : Announcement state announced) :
    Announcement ⟨move.flag, Function.update state.calls id move.pc⟩
      (announced + move.outputs.countP isAnnouncement) := by
  cases hreadying with
  | nothing hbefore hafter hsame _ _ _ hzero _ =>
    have hsetting : ∀ other, (Function.update state.calls id move.pc other).isSetting =
        (state.calls other).isSetting := by
      intro other
      rw [isSetting_update]
      split_ifs with hother
      · rw [hother, hbefore, hafter]
      · rfl
    rw [hzero]
    cases hannouncement with
    | unset hready hnone hcount =>
      exact .unset (hsame.trans hready) (fun other => (hsetting other).trans (hnone other)) hcount
    | due setter hready hone hcount =>
      exact .due setter (hsame.trans hready) (fun other => by rw [hsetting, hone]) hcount
    | done hready hnone hcount =>
      exact .done (hsame.trans hready) (fun other => (hsetting other).trans (hnone other)) hcount
  | sets hbefore hafter hunready hready _ _ _ hquiet =>
    cases hannouncement with
    | unset _ hnone hcount =>
      refine .due id hready (fun other => ?_) (by simp [hquiet, hcount])
      rw [isSetting_update]
      split_ifs with hother
      · exact iff_of_true hafter hother
      · exact iff_of_false (by rw [hnone other]; exact Bool.false_ne_true) hother
    | due _ hwas _ _ | done hwas _ _ => simp [hunready] at hwas
  | goesOn hbefore hafter hsame _ _ _ hquiet =>
    cases hannouncement with
    | due setter hready hone hcount =>
      obtain rfl := (hone id).mp hbefore
      refine .due id (hsame.trans hready) (fun other => ?_) (by simp [hquiet, hcount])
      rw [isSetting_update]
      split_ifs with hother
      · exact iff_of_true hafter hother
      · exact hone other
    | unset _ hnone _ | done _ hnone _ => exact absurd hbefore (Bool.eq_false_iff.mp (hnone id))
  | announces hbefore _ hafter hflag hone _ =>
    cases hannouncement with
    | due setter hready hsetter hcount =>
      obtain rfl := (hsetter id).mp hbefore
      refine .done (by rw [hflag, ready_send, hready]) (fun other => ?_) (by rw [hone, hcount])
      rw [isSetting_update]
      split_ifs with hother
      · rw [hafter]
        rfl
      · exact Bool.eq_false_iff.mpr fun h => hother ((hsetter other).mp h)
    | unset _ hnone _ | done _ hnone _ => exact absurd hbefore (Bool.eq_false_iff.mp (hnone id))

theorem Readying.value {move : Move} (hreadying : Readying state.flag (state.calls id) move) :
    move.flag.value = state.flag.value ∨ 0 < move.outputs.countP isAnnouncement := by
  cases hreadying with
  | nothing _ _ _ hvalue _ _ _ _ => exact .inl hvalue
  | sets _ _ _ _ hvalue _ _ _ => exact .inl hvalue
  | goesOn _ _ _ hvalue _ _ _ => exact .inl hvalue
  | announces _ _ _ _ hone _ => exact .inr (by omega)

theorem Readying.marked {move : Move} (hreadying : Readying state.flag (state.calls id) move) :
    move.outputs.countP isMark ≤ move.outputs.countP isAnnouncement := by
  cases hreadying with
  | nothing _ _ _ _ _ _ _ hzero => rw [hzero]; exact Nat.zero_le _
  | sets _ _ _ _ _ _ _ hquiet => simp [hquiet]
  | goesOn _ _ _ _ _ _ hquiet => simp [hquiet]
  | announces _ _ _ _ hone hmarked => rw [hone]; exact hmarked

/-- What a move of one call keeps. -/
theorem Consistent.move (hstate : Consistent state outputs) {move : Move}
    (hfits : Fits move.flag id move.pc) (hframe : Frame state.flag move.flag id)
    (hreadying : Readying state.flag (state.calls id) move) :
    Consistent ⟨move.flag, Function.update state.calls id move.pc⟩ (outputs ++ move.outputs) := by
  refine ⟨fun other => ?_, fun hready => ?_, ?_, ?_, fun hvalue => ?_⟩
  · by_cases hother : other = id
    · subst hother
      simpa using hfits
    · simpa [hother] using (hstate.fits other).of_frame hframe hother
  · by_cases hclear : ∃ other ≠ id, state.calls other = .markReady .clear
    · obtain ⟨other, hother, hclear⟩ := hclear
      exact .inr ⟨other, by simpa [hother] using hclear⟩
    · have hsettled : Settled state.flag (state.calls id) := by
        intro hwas
        rcases hstate.settled hwas with hnone | ⟨other, hother⟩
        · exact .inl hnone
        · obtain rfl : other = id := by
            by_contra hne
            exact hclear ⟨other, hne, hother⟩
          exact .inr hother
      rcases hreadying.settled hsettled hready with hnone | hclear
      · exact .inl hnone
      · exact .inr ⟨id, by simpa using hclear⟩
  · rw [countP_append]
    exact hreadying.announcement hstate.announcement
  · rw [countP_append, countP_append]
    exact Nat.add_le_add hstate.marked hreadying.marked
  · rw [countP_append]
    rcases hreadying.value with hsame | hannounced
    · exact Nat.add_pos_left (hstate.value (hsame ▸ hvalue)) _
    · exact Nat.add_pos_right _ hannounced

theorem Consistent.next (hstate : Consistent state outputs) (event : Event) :
    Consistent (state.next event).1 (outputs ++ (state.next event).2) := by
  cases event with
  | call id operation =>
    rw [State.next]
    split_ifs with hunused
    · have hwas := hstate.fits id
      rw [hunused] at hwas
      have hbegin : Fits state.flag id operation.begin := by
        cases operation <;> exact ⟨hwas.lock, hwas.receiver, by simp [Operation.begin],
          by simp [Operation.begin], trivial⟩
      have hreadying : Readying state.flag (state.calls id) ⟨state.flag, operation.begin, []⟩ := by
        rw [hunused]
        cases operation <;> exact .of_flag rfl rfl rfl rfl rfl rfl rfl rfl
      exact hstate.move hbegin .refl hreadying
    · rw [append_nil]
      exact hstate
  | step id =>
    obtain ⟨hfits, hframe⟩ := keeps_advance (hstate.fits id) hstate.settled_of_lock
    exact hstate.move hfits hframe (hstate.readying id)

end Step

/-! ## Safety -/

section Safety

variable (schedule : ℕ → Event)

theorem consistent_at (n : ℕ) : Consistent (stateAt schedule n) (outputsUpTo schedule n) :=
  Run.invariant State.next .start (P := fun _ state outputs => Consistent state outputs)
    consistent_start (fun _ _ _ event hstate => hstate.next event) _

theorem stateAt_succ (n : ℕ) :
    stateAt schedule (n + 1) = ((stateAt schedule n).next (schedule n)).1 :=
  Run.along_succ State.next .start schedule n

theorem outputsUpTo_succ (n : ℕ) :
    outputsUpTo schedule (n + 1) = outputsUpTo schedule n ++ outputsAt schedule n := by
  rw [outputsUpTo, range_succ, map_append, map_singleton, Run.outputs_concat]
  rfl

variable {schedule}

theorem ready_succ {n : ℕ} (hready : (stateAt schedule n).flag.ready = true) :
    (stateAt schedule (n + 1)).flag.ready = true := by
  have hstate := consistent_at schedule n
  rw [stateAt_succ]
  cases schedule n with
  | call id operation =>
    rw [State.next]
    split_ifs <;> exact hready
  | step id =>
    exact (keeps_advance (hstate.fits id) hstate.settled_of_lock).2.ready hready

theorem countP_isAnnouncement_le (n : ℕ) : (outputsUpTo schedule n).countP isAnnouncement ≤ 1 := by
  cases (consistent_at schedule n).announcement with
  | unset _ _ hcount | due _ _ _ hcount | done _ _ hcount => omega

/-- The output denies that the flag is ready, by a token or outright. -/
def denies : Output → Bool
  | .isReady _ ready => !ready
  | .subscribed _ token => token.isSome
  | .marked _ _ | .waited _ | .announced _ => false

theorem denies_answer {flag : ReadinessFlag} {id : ℕ} (waiting : Bool) :
    ∀ output ∈ (answer flag id waiting true).outputs, denies output = false := by
  cases waiting <;> simp [answer, denies]

/-- No call denies that the flag is ready when it is. -/
theorem denies_advance {flag : ReadinessFlag} {id : ℕ} {pc : Pc} (hfits : Fits flag id pc)
    (hready : flag.ready = true) :
    ∀ output ∈ (advance flag id pc).outputs, denies output = false := by
  cases pc with
  | unused => simp [advance]
  | subscribe pc =>
    cases pc with
    | unlock token =>
      have hnone : token.isSome = false :=
        Bool.eq_false_iff.mpr fun h => by simp [hfits.unset h] at hready
      simp [advance, subscribe, denies, hnone]
    | insert | lock =>
      rw [advance, subscribe]
      split_ifs <;> simp
    | _ => simp [advance, subscribe, hready, denies]
  | markReady pc =>
    cases pc <;> rw [advance, markReady] <;> try split_ifs
    all_goals simp [denies]
  | isReady waiting pc =>
    cases pc with
    | load =>
      rw [advance, isReady, if_pos hready]
      exact denies_answer waiting
    | unlock wasReady =>
      rw [advance, isReady]
      split_ifs
      · exact denies_answer waiting
      · simp
    | send => exact forall_mem_cons.mpr ⟨rfl, denies_answer waiting⟩
    | reload =>
      rw [advance, isReady, hready]
      exact denies_answer waiting
    | swap => simp [advance, isReady]
    | _ =>
      rw [advance, isReady]
      split_ifs <;> simp
  | waitReady pc =>
    cases pc with
    | subscribe => simp [advance, waitReady]
    | changed seen =>
      rw [advance, waitReady]
      split_ifs <;> simp
    | _ =>
      rw [advance, waitReady, readValue]
      split_ifs <;> simp [denies]
  | returned => simp [advance]

theorem denies_outputsAt {n : ℕ} (hready : (stateAt schedule n).flag.ready = true) :
    ∀ output ∈ outputsAt schedule n, denies output = false := by
  unfold outputsAt
  cases schedule n with
  | call id operation =>
    rw [State.next]
    split_ifs <;> simp
  | step id => exact denies_advance ((consistent_at schedule n).fits id) hready

theorem safe (schedule : ℕ → Event) : Safe schedule := by
  refine ⟨fun n => ?_, fun m n hle hready => ?_, fun n id hready hmem => ?_,
    fun n id token hready hmem => ?_⟩
  · exact (consistent_at schedule n).marked.trans (countP_isAnnouncement_le n)
  · exact Run.keep (P := fun n => (stateAt schedule n).flag.ready = true) (fun _ => ready_succ) hle
      hready
  · simpa [denies] using denies_outputsAt hready _ hmem
  · simpa [denies] using denies_outputsAt hready _ hmem

end Safety

/-! ## Waiting -/

section Waiting

variable {schedule : ℕ → Event} {id n : ℕ}

theorem calls_step (hstep : schedule n = .step id) :
    (stateAt schedule (n + 1)).calls id =
      (advance (stateAt schedule n).flag id ((stateAt schedule n).calls id)).pc := by
  rw [stateAt_succ, hstep]
  simp [State.next]

theorem flag_step (hstep : schedule n = .step id) :
    (stateAt schedule (n + 1)).flag =
      (advance (stateAt schedule n).flag id ((stateAt schedule n).calls id)).flag := by
  rw [stateAt_succ, hstep]
  rfl

/-- A call that has begun is moved by its own steps only. -/
theorem calls_of_ne (hused : (stateAt schedule n).calls id ≠ .unused)
    (hother : schedule n ≠ .step id) :
    (stateAt schedule (n + 1)).calls id = (stateAt schedule n).calls id := by
  rw [stateAt_succ]
  cases hevent : schedule n with
  | call other operation =>
    rw [State.next]
    split_ifs with hunused
    · have hne : id ≠ other := by
        rintro rfl
        exact hused hunused
      simp [hne]
    · rfl
  | step other =>
    have hne : id ≠ other := by
      rintro rfl
      exact hother hevent
    simp [State.next, hne]

/-- How far a call that has set the flag is from announcing it. -/
def settingRank : Pc → ℕ
  | .markReady .clear => 2
  | .markReady (.unlock _) | .isReady _ (.unlock _) => 1
  | _ => 0

variable {flag : ReadinessFlag}

theorem settingRank_advance {pc : Pc} (hbefore : pc.isSetting = true)
    (hafter : (advance flag id pc).pc.isSetting = true) :
    settingRank (advance flag id pc).pc < settingRank pc := by
  cases pc with
  | markReady pc =>
    cases pc with
    | clear => simp [advance, markReady, settingRank]
    | unlock marked =>
      obtain rfl : marked = true := hbefore
      simp [advance, markReady, settingRank]
    | send => simp [advance, markReady] at hafter
    | _ => simp at hbefore
  | isReady waiting pc =>
    cases pc with
    | unlock wasReady =>
      obtain rfl : wasReady = false := by simpa using hbefore
      simp [advance, isReady, settingRank]
    | send => cases waiting <;> simp [advance, isReady, answer] at hafter
    | _ => simp at hbefore
  | _ => simp at hbefore

/-- The flag has been announced. -/
def Announced (schedule : ℕ → Event) (n : ℕ) : Prop :=
  0 < (outputsUpTo schedule n).countP isAnnouncement

theorem Announced.spec (h : Announced schedule n) :
    (stateAt schedule n).flag.ready = true ∧
      ∀ other, ((stateAt schedule n).calls other).isSetting = false := by
  unfold Announced at h
  cases (consistent_at schedule n).announcement with
  | unset _ _ hcount => omega
  | due _ _ _ hcount => omega
  | done hready hnone _ => exact ⟨hready, hnone⟩

theorem Announced.succ (h : Announced schedule n) : Announced schedule (n + 1) := by
  unfold Announced at h ⊢
  rw [outputsUpTo_succ, countP_append]
  omega

theorem Announced.of_step (hstep : schedule n = .step id)
    (h : 0 < (advance (stateAt schedule n).flag id
      ((stateAt schedule n).calls id)).outputs.countP isAnnouncement) :
    Announced schedule (n + 1) := by
  unfold Announced
  rw [outputsUpTo_succ, countP_append, outputsAt, hstep]
  exact Nat.add_pos_right _ h

/-- The flag is announced by the call that has set it. -/
theorem exists_announced (hready : (stateAt schedule n).flag.ready = true)
    (hsetters : ∀ other, ((stateAt schedule n).calls other).isSetting = true → Often schedule other) :
    ∃ m ≥ n, Announced schedule m := by
  cases (consistent_at schedule n).announcement with
  | unset hunready _ _ => simp [hunready] at hready
  | done _ _ hcount => exact ⟨n, le_rfl, by unfold Announced; omega⟩
  | due setter _ hone _ =>
    have hstart : ((stateAt schedule n).calls setter).isSetting = true := (hone setter).mpr rfl
    refine Run.exists_of_rank (fun k => ((stateAt schedule k).calls setter).isSetting = true)
      (fun k => settingRank ((stateAt schedule k).calls setter)) (hsetters setter hstart) ?_ ?_
      hstart
    · -- its own operation announces the flag or comes closer to it
      intro k hstep hsetting
      rw [calls_step hstep]
      cases (consistent_at schedule k).readying setter with
      | nothing hbefore _ _ _ _ _ _ _ | sets hbefore _ _ _ _ _ _ _ =>
        exact absurd hsetting (Bool.eq_false_iff.mp hbefore)
      | goesOn _ hafter _ _ _ _ _ => exact .inr ⟨hafter, settingRank_advance hsetting hafter⟩
      | announces _ _ _ _ hcount _ => exact .inl (.of_step hstep (by omega))
    · intro k hother hsetting
      have hused : (stateAt schedule k).calls setter ≠ .unused := by
        intro hunused
        simp [hunused] at hsetting
      rw [calls_of_ne hused hother]
      exact .inr ⟨hsetting, le_rfl⟩

/-- A call that waits can be told: the channel says so, or it does not depend on it. -/
def Promised (flag : ReadinessFlag) (pc : Pc) : Prop :=
  flag.value = true ∨ ∀ wait, pc ≠ .waitReady wait

/-- How many operations are left to a waiting call once the flag has been announced. -/
def waitRank : Pc → ℕ
  | .isReady _ .tryLock => 4
  | .isReady _ .check => 3
  | .isReady _ .swap => 2
  | .isReady _ _ => 1
  | .waitReady .subscribe | .waitReady (.changed _) => 1
  | _ => 0

theorem answer_true (flag : ReadinessFlag) (waiting : Bool) :
    (answer flag id waiting true).pc = .returned := by
  cases waiting <;> rfl

/-- A waiting call comes closer to its return, or returns. -/
theorem waits_advance {pc : Pc} (hfits : Fits flag id pc) (hready : flag.ready = true)
    (hsetting : pc.isSetting = false) (hwaits : pc.waits = true) (hpromised : Promised flag pc) :
    (advance flag id pc).pc = .returned ∨
      (advance flag id pc).pc.waits = true ∧ waitRank (advance flag id pc).pc < waitRank pc ∧
        Promised (advance flag id pc).flag (advance flag id pc).pc := by
  cases pc with
  | isReady waiting pc =>
    obtain rfl : waiting = true := hwaits
    cases pc with
    | load =>
      rw [advance, isReady, if_pos hready]
      exact .inl (answer_true flag true)
    | tryLock | check =>
      rw [advance, isReady]
      split_ifs <;> exact .inr ⟨rfl, by simp [waitRank], .inr (by simp)⟩
    | swap =>
      exact .inr ⟨rfl, by simp [advance, isReady, waitRank], .inr (by simp [advance, isReady])⟩
    | unlock wasReady =>
      obtain rfl : wasReady = true := by simpa using hsetting
      exact .inl (answer_true _ true)
    | send => simp at hsetting
    | reload =>
      rw [advance, isReady, hready]
      exact .inl (answer_true flag true)
  | waitReady pc =>
    have hvalue : flag.value = true := hpromised.resolve_right fun h => h pc rfl
    cases pc with
    | subscribe =>
      exact .inr ⟨rfl, by simp [advance, waitReady, waitRank], .inl hvalue⟩
    | borrow seen | recheck seen =>
      rw [advance, waitReady, readValue, if_pos hvalue]
      exact .inl rfl
    | changed seen =>
      have hlater : seen ≠ flag.version := (hfits.seen.2 hvalue).ne
      rw [advance, waitReady, if_neg hlater]
      exact .inr ⟨rfl, by simp [waitRank], .inl hvalue⟩
  | _ => simp [Pc.waits] at hwaits

theorem value_succ (h : (stateAt schedule n).flag.value = true) :
    (stateAt schedule (n + 1)).flag.value = true := by
  rw [stateAt_succ]
  cases schedule n with
  | call id operation =>
    rw [State.next]
    split_ifs <;> exact h
  | step id =>
    cases (consistent_at schedule n).readying id with
    | nothing _ _ _ hvalue _ _ _ _ | sets _ _ _ _ hvalue _ _ _ | goesOn _ _ _ hvalue _ _ _ =>
      exact hvalue.trans h
    | announces _ _ _ hflag _ _ =>
      change (advance _ _ _).flag.value = true
      rw [hflag, ReadinessFlag.send]
      split_ifs
      · exact h
      · rfl

/-- A `wait_ready` that could be told returns. -/
theorem exists_returned (hannounced : Announced schedule n)
    (hwaits : ((stateAt schedule n).calls id).waits = true) (hoften : Often schedule id)
    (hpromised : Promised (stateAt schedule n).flag ((stateAt schedule n).calls id)) :
    ∃ m ≥ n, (stateAt schedule m).calls id = .returned := by
  refine Run.exists_of_rank
    (fun k => Announced schedule k ∧ ((stateAt schedule k).calls id).waits = true ∧
      Promised (stateAt schedule k).flag ((stateAt schedule k).calls id))
    (fun k => waitRank ((stateAt schedule k).calls id)) hoften ?_ ?_ ⟨hannounced, hwaits, hpromised⟩
  · -- its own operation returns or comes closer to the return
    rintro k hstep ⟨hannounced, hwaits, hpromised⟩
    obtain ⟨hready, hnone⟩ := hannounced.spec
    rw [calls_step hstep, flag_step hstep]
    refine (waits_advance ((consistent_at schedule k).fits id) hready (hnone id) hwaits
      hpromised).imp_right ?_
    rintro ⟨hwaits, hrank, hpromised⟩
    exact ⟨⟨hannounced.succ, hwaits, hpromised⟩, hrank⟩
  · rintro k hother ⟨hannounced, hwaits, hpromised⟩
    have hused : (stateAt schedule k).calls id ≠ .unused := by
      intro hunused
      simp [hunused, Pc.waits] at hwaits
    rw [calls_of_ne hused hother]
    exact .inr ⟨⟨hannounced.succ, hwaits, hpromised.imp_left value_succ⟩, le_rfl⟩

/-! ## When the announcement is heard -/

/-- `is_ready` does not send a call to the channel when the flag is ready. -/
theorem ne_waitReady_advance {pc : Pc} (hready : flag.ready = true)
    (hpc : ∀ wait, pc ≠ .waitReady wait) (wait : WaitPc) :
    (advance flag id pc).pc ≠ .waitReady wait := by
  cases pc with
  | unused => simp [advance]
  | subscribe pc =>
    cases pc <;> rw [advance, subscribe] <;> try split_ifs
    all_goals simp
  | markReady pc =>
    cases pc <;> rw [advance, markReady] <;> try split_ifs
    all_goals simp
  | isReady waiting pc =>
    cases pc with
    | send => simp [advance, isReady, answer_true]
    | reload => simp [advance, isReady, hready, answer_true]
    | swap => simp [advance, isReady]
    | _ =>
      rw [advance, isReady]
      split_ifs <;> simp [answer_true]
  | waitReady pc => exact absurd rfl (hpc pc)
  | returned => simp [advance]

theorem ne_waitReady_succ (hready : (stateAt schedule n).flag.ready = true)
    (hpc : ∀ wait, (stateAt schedule n).calls id ≠ .waitReady wait) (wait : WaitPc) :
    (stateAt schedule (n + 1)).calls id ≠ .waitReady wait := by
  by_cases hstep : schedule n = .step id
  · rw [calls_step hstep]
    exact ne_waitReady_advance hready hpc wait
  · by_cases hunused : (stateAt schedule n).calls id = .unused
    · rw [stateAt_succ]
      cases hevent : schedule n with
      | call other operation =>
        rw [State.next]
        split_ifs with hother
        · by_cases hid : id = other
          · cases operation <;> simp [hid, Operation.begin]
          · simp [hid, hunused]
        · simp [hunused]
      | step other =>
        have hid : id ≠ other := by
          rintro rfl
          exact hstep hevent
        simp [State.next, hid, hunused]
    · rw [calls_of_ne hunused hstep]
      exact hpc wait

/-- The step that announces the flag. -/
theorem exists_announcing (hbefore : ¬Announced schedule n) (hafter : Announced schedule (n + 1)) :
    ∃ caller, schedule n = .step caller ∧ ((stateAt schedule n).calls caller).isSending = true ∧
      (stateAt schedule (n + 1)).flag = (stateAt schedule n).flag.send ∧
      (stateAt schedule (n + 1)).calls caller = .returned := by
  have hnow : 0 < (outputsAt schedule n).countP isAnnouncement := by
    unfold Announced at hbefore hafter
    rw [outputsUpTo_succ, countP_append] at hafter
    omega
  cases hevent : schedule n with
  | call id operation =>
    rw [outputsAt, hevent, State.next] at hnow
    split_ifs at hnow <;> simp at hnow
  | step caller =>
    have houtputs : outputsAt schedule n = (advance (stateAt schedule n).flag caller
        ((stateAt schedule n).calls caller)).outputs := by
      rw [outputsAt, hevent]
      rfl
    rw [houtputs] at hnow
    refine ⟨caller, rfl, ?_⟩
    rw [flag_step hevent, calls_step hevent]
    cases (consistent_at schedule n).readying caller with
    | nothing _ _ _ _ _ _ hzero _ => omega
    | sets _ _ _ _ _ _ _ hquiet | goesOn _ _ _ _ _ _ hquiet => simp [hquiet] at hnow
    | announces _ hsending hreturned hflag _ _ => exact ⟨hsending, hflag, hreturned⟩

/-- A `wait_ready` that is scheduled often enough can be told from the announcement on. -/
theorem promised_of_heard (hheard : Heard schedule) (hoften : Often schedule id)
    (hannounced : Announced schedule n) :
    Promised (stateAt schedule n).flag ((stateAt schedule n).calls id) := by
  induction n with
  | zero => cases hannounced
  | succ n ih =>
    by_cases hearlier : Announced schedule n
    · rcases ih hearlier with hvalue | hpc
      · exact .inl (value_succ hvalue)
      · exact .inr fun wait => ne_waitReady_succ hearlier.spec.1 hpc wait
    · obtain ⟨caller, hstep, hsending, hflag, hreturned⟩ := exists_announcing hearlier hannounced
      by_cases hnobody : (stateAt schedule n).flag.receivers = ∅
      · -- nobody is told, so nobody may depend on it
        refine .inr fun wait hwait => ?_
        have hne : id ≠ caller := by
          rintro rfl
          simp [hreturned] at hwait
        have hsame : (stateAt schedule n).calls id = .waitReady wait := by
          rw [stateAt_succ, hstep] at hwait
          simpa [State.next, hne] using hwait
        cases wait with
        | subscribe => exact hheard n caller id hstep hsending hnobody hsame hoften
        | _ =>
          have hmem := ((consistent_at schedule n).fits id).receiver.mp (by simp [hsame])
          simp [hnobody] at hmem
      · refine .inl ?_
        rw [hflag, ReadinessFlag.send, if_neg hnobody]

theorem waits_advance_or {pc : Pc} (hwaits : pc.waits = true) :
    (advance flag id pc).pc = .returned ∨ (advance flag id pc).pc.waits = true := by
  cases pc with
  | isReady waiting pc =>
    obtain rfl : waiting = true := hwaits
    cases pc with
    | swap => exact .inr rfl
    | send => exact .inl rfl
    | reload =>
      rw [advance, isReady]
      cases flag.ready with
      | true => exact .inl rfl
      | false => exact .inr rfl
    | _ =>
      rw [advance, isReady]
      split_ifs
      · first | exact .inl (answer_true _ true) | exact .inr rfl
      · exact .inr rfl
  | waitReady pc =>
    cases pc with
    | subscribe => exact .inr rfl
    | changed seen =>
      rw [advance, waitReady]
      split_ifs <;> exact .inr rfl
    | _ =>
      rw [advance, waitReady, readValue]
      split_ifs
      · exact .inl rfl
      · exact .inr rfl
  | _ => simp [Pc.waits] at hwaits

theorem waits_or_returned {m : ℕ} (hle : n ≤ m)
    (hwaits : ((stateAt schedule n).calls id).waits = true) :
    (∃ k ≥ n, (stateAt schedule k).calls id = .returned) ∨
      ((stateAt schedule m).calls id).waits = true := by
  induction m, hle using Nat.le_induction with
  | base => exact .inr hwaits
  | succ m hle ih =>
    rcases ih with hreturned | hstill
    · exact .inl hreturned
    · by_cases hstep : schedule m = .step id
      · rw [calls_step hstep]
        refine (waits_advance_or hstill).imp_left fun hreturned => ⟨m + 1, by omega, ?_⟩
        rw [calls_step hstep, hreturned]
      · have hused : (stateAt schedule m).calls id ≠ .unused := by
          intro hunused
          simp [hunused, Pc.waits] at hstill
        rw [calls_of_ne hused hstep]
        exact .inr hstill

theorem waitersReturn_of_heard (hheard : Heard schedule) : WaitersReturn schedule := by
  intro n id hready hwaits hoften hsetters
  obtain ⟨m, hm, hannounced⟩ := exists_announced hready hsetters
  rcases waits_or_returned hm hwaits with hreturned | hstill
  · exact hreturned
  · obtain ⟨k, hk, hreturned⟩ := exists_returned hannounced hstill hoften
      (promised_of_heard hheard hoften hannounced)
    exact ⟨k, by omega, hreturned⟩

/-! ## When it is not -/

/-- The call is on its way to wait for a version that there will not be. -/
def Hanging (flag : ReadinessFlag) (pc : Pc) : Prop :=
  pc = .waitReady .subscribe ∨ pc = .waitReady (.borrow flag.version) ∨
    pc = .waitReady (.changed flag.version)

theorem hanging_advance {pc : Pc} (hvalue : flag.value = false) (h : Hanging flag pc) :
    Hanging (advance flag id pc).flag (advance flag id pc).pc := by
  rcases h with rfl | rfl | rfl
  · exact .inr (.inl rfl)
  · have hfalse : ¬flag.value = true := by simp [hvalue]
    rw [advance, waitReady, readValue, if_neg hfalse]
    exact .inr (.inr rfl)
  · rw [advance, waitReady, if_pos rfl]
    exact .inr (.inr rfl)

/-- After the announcement the channel does not change. -/
theorem channel_succ (hannounced : Announced schedule n) :
    (stateAt schedule (n + 1)).flag.value = (stateAt schedule n).flag.value ∧
      (stateAt schedule (n + 1)).flag.version = (stateAt schedule n).flag.version := by
  obtain ⟨hready, hnone⟩ := hannounced.spec
  rw [stateAt_succ]
  cases schedule n with
  | call id operation =>
    rw [State.next]
    split_ifs <;> exact ⟨rfl, rfl⟩
  | step id =>
    cases (consistent_at schedule n).readying id with
    | nothing _ _ _ hvalue hversion _ _ _ => exact ⟨hvalue, hversion⟩
    | sets _ _ hunready _ _ _ _ _ => simp [hunready] at hready
    | goesOn hbefore _ _ _ _ _ _ | announces hbefore _ _ _ _ _ =>
      exact absurd hbefore (Bool.eq_false_iff.mp (hnone id))

/-- A call that hangs after the announcement hangs for ever. -/
theorem hanging_of_le {m : ℕ} (hle : n ≤ m) (hannounced : Announced schedule n)
    (hvalue : (stateAt schedule n).flag.value = false)
    (hhanging : Hanging (stateAt schedule n).flag ((stateAt schedule n).calls id)) :
    Hanging (stateAt schedule m).flag ((stateAt schedule m).calls id) := by
  refine (Run.keep (P := fun m => Announced schedule m ∧ (stateAt schedule m).flag.value = false ∧
    Hanging (stateAt schedule m).flag ((stateAt schedule m).calls id)) ?_ hle
      ⟨hannounced, hvalue, hhanging⟩).2.2
  rintro k ⟨hannounced, hvalue, hhanging⟩
  obtain ⟨hsame, hversion⟩ := channel_succ hannounced
  refine ⟨hannounced.succ, hsame.trans hvalue, ?_⟩
  by_cases hstep : schedule k = .step id
  · rw [calls_step hstep, flag_step hstep]
    exact hanging_advance hvalue hhanging
  · have hused : (stateAt schedule k).calls id ≠ .unused := by
      rcases hhanging with h | h | h <;> simp [h]
    rw [calls_of_ne hused hstep, Hanging, hversion]
    exact hhanging

theorem isSending_spec {pc : Pc} (h : pc.isSending = true) :
    pc.isSetting = true ∧ settingRank pc = 0 := by
  cases pc with
  | markReady pc | isReady waiting pc => cases pc <;> simp_all [settingRank]
  | _ => simp at h

/-- Told to nobody, a call on its way to its receiver waits for ever. -/
theorem never_returned {caller m : ℕ} (hstep : schedule n = .step caller)
    (hsending : ((stateAt schedule n).calls caller).isSending = true)
    (hnobody : (stateAt schedule n).flag.receivers = ∅)
    (hwait : (stateAt schedule n).calls id = .waitReady .subscribe) (hle : n + 1 ≤ m) :
    Announced schedule (n + 1) ∧ (stateAt schedule (n + 1)).calls id = .waitReady .subscribe ∧
      (stateAt schedule m).calls id ≠ .returned := by
  obtain ⟨hsetting, hlast⟩ := isSending_spec hsending
  have hcount : (outputsUpTo schedule n).countP isAnnouncement = 0 := by
    cases (consistent_at schedule n).announcement with
    | unset _ _ hcount => exact hcount
    | due _ _ _ hcount => exact hcount
    | done _ hnone _ => exact absurd hsetting (Bool.eq_false_iff.mp (hnone caller))
  have hvalue : (stateAt schedule n).flag.value = false := by
    refine Bool.eq_false_iff.mpr fun hvalue => ?_
    have := (consistent_at schedule n).value hvalue
    omega
  have hannounces : Announced schedule (n + 1) ∧
      (stateAt schedule (n + 1)).flag = (stateAt schedule n).flag := by
    rw [flag_step hstep]
    cases (consistent_at schedule n).readying caller with
    | nothing hbefore _ _ _ _ _ _ _ | sets hbefore _ _ _ _ _ _ _ =>
      exact absurd hsetting (Bool.eq_false_iff.mp hbefore)
    | goesOn _ hafter _ _ _ _ _ =>
      have := settingRank_advance hsetting hafter
      omega
    | announces _ _ _ hflag hone _ =>
      refine ⟨.of_step hstep (by omega), ?_⟩
      rw [hflag, ReadinessFlag.send, if_pos hnobody]
  obtain ⟨hannounced, hflag⟩ := hannounces
  have hstill : (stateAt schedule (n + 1)).calls id = .waitReady .subscribe := by
    have hother : schedule n ≠ .step id := by
      intro hown
      obtain rfl : caller = id := Event.step.inj (hstep.symm.trans hown)
      simp [hwait] at hsending
    rw [calls_of_ne (by simp [hwait]) hother, hwait]
  refine ⟨hannounced, hstill, fun hreturned => ?_⟩
  have hhanging := hanging_of_le hle hannounced (hflag ▸ hvalue) (.inl hstill)
  rw [hreturned] at hhanging
  simp [Hanging] at hhanging

theorem heard_of_waitersReturn (hreturn : WaitersReturn schedule) : Heard schedule := by
  intro n caller id hstep hsending hnobody hwait hoften
  obtain ⟨hannounced, hstill, -⟩ := never_returned hstep hsending hnobody hwait le_rfl
  obtain ⟨hready, hnone⟩ := hannounced.spec
  obtain ⟨m, hm, hreturned⟩ := hreturn (n + 1) id hready (by simp [hstill, Pc.waits]) hoften
    fun other hsetting => absurd hsetting (Bool.eq_false_iff.mp (hnone other))
  exact (never_returned hstep hsending hnobody hwait hm).2.2 hreturned

end Waiting

/-- The flag is safe in every run, and no `wait_ready` waits for ever exactly if the announcement
is heard. -/
theorem dependable_iff (schedule : ℕ → Event) :
    Safe schedule ∧ (WaitersReturn schedule ↔ Heard schedule) :=
  ⟨safe schedule, heard_of_waitersReturn, waitersReturn_of_heard⟩

/-- A call waits and finds the flag unset, another one with the only token sets and announces it;
from then on they take turns. -/
def lostWakeup (n : ℕ) : Event :=
  let opening : List Event :=
    [.call 0 .subscribe, .step 0, .step 0, .step 0, .step 0, .step 0,
      .call 1 .waitReady, .step 1, .step 1, .step 1, .step 1,
      .call 2 (.markReady 1), .step 2, .step 2, .step 2, .step 2, .step 2, .step 2, .step 2]
  opening[n]?.getD (.step (n % 3))

theorem often_lostWakeup {id : ℕ} (hid : id < 3) : Often lostWakeup id := by
  intro n
  refine ⟨3 * (n + 7) + id, by omega, ?_⟩
  have hturn : (3 * (n + 7) + id) % 3 = id := by omega
  rw [lostWakeup, getElem?_eq_none (by simp; omega), hturn]
  rfl

/-- The flag is ready and all three calls are scheduled again and again, and the second one does
not return. -/
theorem wakeup_lost : (stateAt lostWakeup 19).flag.ready = true ∧
    (∀ id < 3, Often lostWakeup id) ∧ ((stateAt lostWakeup 19).calls 1).waits = true ∧
    ¬∃ m ≥ 19, (stateAt lostWakeup m).calls 1 = .returned := by
  have hstep : lostWakeup 18 = .step 2 := rfl
  have hsending : ((stateAt lostWakeup 18).calls 2).isSending = true := rfl
  have hnobody : (stateAt lostWakeup 18).flag.receivers = ∅ := rfl
  have hwait : (stateAt lostWakeup 18).calls 1 = .waitReady .subscribe := rfl
  refine ⟨rfl, fun id hid => often_lostWakeup hid, rfl, ?_⟩
  rintro ⟨m, hm, hreturned⟩
  exact (never_returned hstep hsending hnobody hwait hm).2.2 hreturned

end Codex.Readiness
