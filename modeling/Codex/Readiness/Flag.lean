import Codex.Lib.Run
import Mathlib.Data.Finset.Insert
import Mathlib.Data.Finset.Erase

/-!
# The readiness flag

A flag is an atomic boolean, a set of tokens behind a lock and a watch channel.  Each call goes
through its atomic operations one at a time, and the operations of all calls may be interleaved in
any way.  Sending on the watch channel fails and changes nothing if nobody has a receiver.

A `wait_ready` that has seen the flag unset and has no receiver yet is not told if the flag is set
and announced at this moment; this is the only way to wait for ever (`dependable_iff`).
-/

namespace Codex.Readiness

/-! ## The flag and its calls -/

abbrev Token := BitVec 32

structure ReadinessFlag where
  ready : Bool
  nextId : BitVec 32
  /-- The call that holds the lock of the tokens. -/
  lock : Option ℕ
  tokens : Finset Token
  /-- The value of the watch channel. -/
  value : Bool
  version : ℕ
  /-- The calls that have a receiver of the watch channel. -/
  receivers : Finset ℕ

namespace ReadinessFlag

def new : ReadinessFlag where
  ready := false
  nextId := 1
  lock := none
  tokens := ∅
  value := false
  version := 0
  receivers := ∅

/-- `tx.send(true)` -/
def send (flag : ReadinessFlag) : ReadinessFlag :=
  if flag.receivers = ∅ then flag else { flag with value := true, version := flag.version + 1 }

end ReadinessFlag

inductive Operation where
  | subscribe
  | markReady (token : Token)
  | isReady
  | waitReady

/-- What `subscribe` does next. -/
inductive SubscribePc where
  | load
  | lock
  | recheck
  | insert
  | unlock (token : Option Token)
  deriving DecidableEq

/-- What `mark_ready` does next. -/
inductive MarkPc where
  | load (token : Token)
  | lock (token : Token)
  | remove (token : Token)
  | store
  | clear
  | unlock (marked : Bool)
  | send
  deriving DecidableEq

/-- What `is_ready` does next. -/
inductive ReadyPc where
  | load
  | tryLock
  | check
  | swap
  | unlock (wasReady : Bool)
  | send
  | reload
  deriving DecidableEq

/-- What `wait_ready` does next, after `is_ready`.  Its receiver has seen a version. -/
inductive WaitPc where
  | subscribe
  | borrow (seen : ℕ)
  | changed (seen : ℕ)
  | recheck (seen : ℕ)
  deriving DecidableEq

/-- Where a call is.  For `is_ready` it is noted whether `wait_ready` has called it. -/
inductive Pc where
  | unused
  | subscribe (pc : SubscribePc)
  | markReady (pc : MarkPc)
  | isReady (waiting : Bool) (pc : ReadyPc)
  | waitReady (pc : WaitPc)
  | returned
  deriving DecidableEq

inductive Output where
  /-- `subscribe` returned a token or found the flag ready. -/
  | subscribed (id : ℕ) (token : Option Token)
  | marked (id : ℕ) (marked : Bool)
  | isReady (id : ℕ) (ready : Bool)
  | waited (id : ℕ)
  | announced (id : ℕ)
  deriving DecidableEq

def Operation.begin : Operation → Pc
  | .subscribe => .subscribe .load
  | .markReady token => .markReady (.load token)
  | .isReady => .isReady false .load
  | .waitReady => .isReady true .load

/-- What an operation of a call changes and puts out. -/
structure Move where
  flag : ReadinessFlag
  pc : Pc
  outputs : List Output

section Operations

variable (flag : ReadinessFlag) (id : ℕ)

/-- `subscribe`, one atomic access at a time. -/
def subscribe : SubscribePc → Move
  | .load =>
    if flag.ready then ⟨flag, .returned, [.subscribed id none]⟩ else ⟨flag, .subscribe .lock, []⟩
  | .lock =>
    if flag.lock = none then ⟨{ flag with lock := some id }, .subscribe .recheck, []⟩
    else ⟨flag, .subscribe .lock, []⟩
  | .recheck =>
    if flag.ready then ⟨flag, .subscribe (.unlock none), []⟩ else ⟨flag, .subscribe .insert, []⟩
  | .insert =>
    if flag.nextId ≠ 0 ∧ flag.nextId ∉ flag.tokens then
      ⟨{ flag with nextId := flag.nextId + 1, tokens := insert flag.nextId flag.tokens },
        .subscribe (.unlock (some flag.nextId)), []⟩
    else ⟨{ flag with nextId := flag.nextId + 1 }, .subscribe .insert, []⟩
  | .unlock token => ⟨{ flag with lock := none }, .returned, [.subscribed id token]⟩

/-- `mark_ready`, one atomic access at a time. -/
def markReady : MarkPc → Move
  | .load token =>
    if flag.ready then ⟨flag, .returned, [.marked id false]⟩
    else if token = 0 then ⟨flag, .returned, [.marked id false]⟩
    else ⟨flag, .markReady (.lock token), []⟩
  | .lock token =>
    if flag.lock = none then ⟨{ flag with lock := some id }, .markReady (.remove token), []⟩
    else ⟨flag, .markReady (.lock token), []⟩
  | .remove token =>
    if token ∈ flag.tokens then
      ⟨{ flag with tokens := flag.tokens.erase token }, .markReady .store, []⟩
    else ⟨flag, .markReady (.unlock false), []⟩
  | .store => ⟨{ flag with ready := true }, .markReady .clear, []⟩
  | .clear => ⟨{ flag with tokens := ∅ }, .markReady (.unlock true), []⟩
  | .unlock marked =>
    if marked then ⟨{ flag with lock := none }, .markReady .send, []⟩
    else ⟨{ flag with lock := none }, .returned, [.marked id false]⟩
  | .send => ⟨flag.send, .returned, [.announced id, .marked id true]⟩

/-- `is_ready` returns, and `wait_ready` goes on if it has called it. -/
def answer (waiting ready : Bool) : Move :=
  if waiting then
    if ready then ⟨flag, .returned, [.waited id]⟩ else ⟨flag, .waitReady .subscribe, []⟩
  else ⟨flag, .returned, [.isReady id ready]⟩

/-- `is_ready`, one atomic access at a time, on its own or inside `wait_ready`. -/
def isReady (waiting : Bool) : ReadyPc → Move
  | .load => if flag.ready then answer flag id waiting true else ⟨flag, .isReady waiting .tryLock, []⟩
  | .tryLock =>
    if flag.lock = none then ⟨{ flag with lock := some id }, .isReady waiting .check, []⟩
    else ⟨flag, .isReady waiting .reload, []⟩
  | .check =>
    if flag.tokens = ∅ then ⟨flag, .isReady waiting .swap, []⟩
    else ⟨{ flag with lock := none }, .isReady waiting .reload, []⟩
  | .swap => ⟨{ flag with ready := true }, .isReady waiting (.unlock flag.ready), []⟩
  | .unlock wasReady =>
    if wasReady then answer { flag with lock := none } id waiting true
    else ⟨{ flag with lock := none }, .isReady waiting .send, []⟩
  | .send =>
    let answered := answer flag.send id waiting true
    { answered with outputs := .announced id :: answered.outputs }
  | .reload => answer flag id waiting flag.ready

/-- `wait_ready` returns if the value is set, and else waits for a change. -/
def readValue (seen : ℕ) : Move :=
  if flag.value then ⟨{ flag with receivers := flag.receivers.erase id }, .returned, [.waited id]⟩
  else ⟨flag, .waitReady (.changed seen), []⟩

def waitReady : WaitPc → Move
  | .subscribe =>
    ⟨{ flag with receivers := insert id flag.receivers }, .waitReady (.borrow flag.version), []⟩
  | .borrow seen | .recheck seen => readValue flag id seen
  | .changed seen =>
    if seen = flag.version then ⟨flag, .waitReady (.changed seen), []⟩
    else ⟨flag, .waitReady (.recheck flag.version), []⟩

/-- The next operation of the call. -/
def advance : Pc → Move
  | .unused => ⟨flag, .unused, []⟩
  | .subscribe pc => subscribe flag id pc
  | .markReady pc => markReady flag id pc
  | .isReady waiting pc => isReady flag id waiting pc
  | .waitReady pc => waitReady flag id pc
  | .returned => ⟨flag, .returned, []⟩

end Operations

/-- The flag and where each call is. -/
structure State where
  flag : ReadinessFlag
  calls : ℕ → Pc

def State.start : State := ⟨.new, fun _ => .unused⟩

inductive Event where
  | call (id : ℕ) (operation : Operation)
  | step (id : ℕ)

def State.next (state : State) : Event → State × List Output
  | .call id operation =>
    if state.calls id = .unused then
      ({ state with calls := Function.update state.calls id operation.begin }, [])
    else (state, [])
  | .step id =>
    let move := advance state.flag id (state.calls id)
    (⟨move.flag, Function.update state.calls id move.pc⟩, move.outputs)

/-! ## What one operation keeps -/

namespace SubscribePc

@[simp] def holdsLock : SubscribePc → Bool
  | .load | .lock => false
  | .recheck | .insert | .unlock _ => true

/-- The call found the flag unset and holds the lock since. -/
@[simp] def foundUnset : SubscribePc → Bool
  | .insert => true
  | .unlock token => token.isSome
  | .load | .lock | .recheck => false

end SubscribePc

namespace MarkPc

@[simp] def holdsLock : MarkPc → Bool
  | .load _ | .lock _ | .send => false
  | .remove _ | .store | .clear | .unlock _ => true

@[simp] def foundUnset : MarkPc → Bool
  | .store => true
  | .load _ | .lock _ | .remove _ | .clear | .unlock _ | .send => false

/-- The call has set the flag and has not announced it yet. -/
@[simp] def isSetting : MarkPc → Bool
  | .clear | .send => true
  | .unlock marked => marked
  | .load _ | .lock _ | .remove _ | .store => false

/-- The call is about to announce that the flag is ready. -/
@[simp] def isSending : MarkPc → Bool
  | .send => true
  | .load _ | .lock _ | .remove _ | .store | .clear | .unlock _ => false

end MarkPc

namespace ReadyPc

@[simp] def holdsLock : ReadyPc → Bool
  | .check | .swap | .unlock _ => true
  | .load | .tryLock | .send | .reload => false

/-- The call found no tokens and holds the lock since. -/
@[simp] def foundEmpty : ReadyPc → Bool
  | .swap => true
  | .load | .tryLock | .check | .unlock _ | .send | .reload => false

@[simp] def isSetting : ReadyPc → Bool
  | .send => true
  | .unlock wasReady => !wasReady
  | .load | .tryLock | .check | .swap | .reload => false

@[simp] def isSending : ReadyPc → Bool
  | .send => true
  | .load | .tryLock | .check | .swap | .unlock _ | .reload => false

end ReadyPc

namespace WaitPc

@[simp] def hasReceiver : WaitPc → Bool
  | .subscribe => false
  | .borrow _ | .changed _ | .recheck _ => true

/-- What the call has seen of the watch channel. -/
@[simp] def Seen (flag : ReadinessFlag) : WaitPc → Prop
  | .subscribe => True
  | .borrow seen | .recheck seen => seen ≤ flag.version
  | .changed seen => seen ≤ flag.version ∧ (flag.value = true → seen < flag.version)

end WaitPc

namespace Pc

@[simp] def holdsLock : Pc → Bool
  | .subscribe pc => pc.holdsLock
  | .markReady pc => pc.holdsLock
  | .isReady _ pc => pc.holdsLock
  | .unused | .waitReady _ | .returned => false

@[simp] def hasReceiver : Pc → Bool
  | .waitReady pc => pc.hasReceiver
  | .unused | .subscribe _ | .markReady _ | .isReady _ _ | .returned => false

@[simp] def foundUnset : Pc → Bool
  | .subscribe pc => pc.foundUnset
  | .markReady pc => pc.foundUnset
  | .unused | .isReady _ _ | .waitReady _ | .returned => false

@[simp] def foundEmpty : Pc → Bool
  | .isReady _ pc => pc.foundEmpty
  | .unused | .subscribe _ | .markReady _ | .waitReady _ | .returned => false

@[simp] def isSetting : Pc → Bool
  | .markReady pc => pc.isSetting
  | .isReady _ pc => pc.isSetting
  | .unused | .subscribe _ | .waitReady _ | .returned => false

@[simp] def isSending : Pc → Bool
  | .markReady pc => pc.isSending
  | .isReady _ pc => pc.isSending
  | .unused | .subscribe _ | .waitReady _ | .returned => false

@[simp] def Seen (flag : ReadinessFlag) : Pc → Prop
  | .waitReady pc => pc.Seen flag
  | .unused | .subscribe _ | .markReady _ | .isReady _ _ | .returned => True

end Pc

/-- What the flag says of a call fits where the call is. -/
structure Fits (flag : ReadinessFlag) (id : ℕ) (pc : Pc) : Prop where
  lock : pc.holdsLock = true ↔ flag.lock = some id
  receiver : pc.hasReceiver = true ↔ id ∈ flag.receivers
  unset : pc.foundUnset = true → flag.ready = false
  empty : pc.foundEmpty = true → flag.tokens = ∅
  seen : pc.Seen flag

/-- What the operation of a call leaves to the other calls. -/
structure Frame (flag flag' : ReadinessFlag) (id : ℕ) : Prop where
  lock : ∀ other ≠ id, flag'.lock = some other ↔ flag.lock = some other
  receivers : ∀ other ≠ id, other ∈ flag'.receivers ↔ other ∈ flag.receivers
  guarded : flag'.ready = flag.ready ∧ flag'.tokens = flag.tokens ∨ flag.lock = some id
  ready : flag.ready = true → flag'.ready = true
  channel : flag'.value = flag.value ∧ flag'.version = flag.version ∨ flag.version < flag'.version

namespace Frame

variable {flag : ReadinessFlag} {id : ℕ}

theorem refl : Frame flag flag id :=
  ⟨fun _ _ => .rfl, fun _ _ => .rfl, .inl ⟨rfl, rfl⟩, fun h => h, .inl ⟨rfl, rfl⟩⟩

theorem acquire (hfree : flag.lock = none) : Frame flag { flag with lock := some id } id := by
  refine ⟨fun other hne => ?_, fun _ _ => .rfl, .inl ⟨rfl, rfl⟩, fun h => h, .inl ⟨rfl, rfl⟩⟩
  simp [hfree, hne.symm]

theorem release (hlock : flag.lock = some id) : Frame flag { flag with lock := none } id := by
  refine ⟨fun other hne => ?_, fun _ _ => .rfl, .inl ⟨rfl, rfl⟩, fun h => h, .inl ⟨rfl, rfl⟩⟩
  simp [hlock, hne.symm]

/-- What the lock guards may be changed by the call that holds it. -/
theorem guarded_by (hlock : flag.lock = some id) {ready : Bool} {nextId : BitVec 32}
    {tokens : Finset Token} (hready : flag.ready = true → ready = true) :
    Frame flag { flag with ready := ready, nextId := nextId, tokens := tokens } id :=
  ⟨fun _ _ => .rfl, fun _ _ => .rfl, .inr hlock, hready, .inl ⟨rfl, rfl⟩⟩

theorem send : Frame flag flag.send id := by
  unfold ReadinessFlag.send
  split_ifs with hnobody
  · exact refl
  · exact ⟨fun _ _ => .rfl, fun _ _ => .rfl, .inl ⟨rfl, rfl⟩, fun h => h, .inr (Nat.lt_succ_self _)⟩

theorem withReceivers {receivers : Finset ℕ}
    (h : ∀ other ≠ id, other ∈ receivers ↔ other ∈ flag.receivers) :
    Frame flag { flag with receivers } id :=
  ⟨fun _ _ => .rfl, h, .inl ⟨rfl, rfl⟩, fun h => h, .inl ⟨rfl, rfl⟩⟩

end Frame

/-- The other calls still fit. -/
theorem Fits.of_frame {flag flag' : ReadinessFlag} {id other : ℕ} {pc : Pc}
    (hfits : Fits flag other pc) (hframe : Frame flag flag' id) (hne : other ≠ id) :
    Fits flag' other pc := by
  have hlocked : pc.holdsLock = true → flag'.ready = flag.ready ∧ flag'.tokens = flag.tokens := by
    intro hholds
    rcases hframe.guarded with hsame | hlock
    · exact hsame
    · have hother := hfits.lock.mp hholds
      rw [hlock] at hother
      exact absurd (Option.some.inj hother).symm hne
  refine ⟨hfits.lock.trans (hframe.lock other hne).symm,
    hfits.receiver.trans (hframe.receivers other hne).symm, ?_, ?_, ?_⟩
  · intro hfound
    have hholds : pc.holdsLock = true := by
      cases pc with
      | subscribe pc | markReady pc => cases pc <;> simp_all
      | _ => simp at hfound
    rw [(hlocked hholds).1]
    exact hfits.unset hfound
  · intro hfound
    have hholds : pc.holdsLock = true := by
      cases pc with
      | isReady waiting pc => cases pc <;> simp_all
      | _ => simp at hfound
    rw [(hlocked hholds).2]
    exact hfits.empty hfound
  · have hseen := hfits.seen
    cases pc with
    | waitReady pc =>
      cases pc with
      | subscribe => trivial
      | borrow seen | recheck seen =>
        simp only [Pc.Seen, WaitPc.Seen] at hseen ⊢
        rcases hframe.channel with ⟨-, hversion⟩ | hversion <;> omega
      | changed seen =>
        simp only [Pc.Seen, WaitPc.Seen] at hseen ⊢
        rcases hframe.channel with ⟨hvalue, hversion⟩ | hversion
        · rw [hvalue, hversion]
          exact hseen
        · exact ⟨by omega, fun _ => by omega⟩
    | _ => trivial

section Moves

variable {flag : ReadinessFlag} {id : ℕ} {pc : Pc}

/-- The call fits after the operation, which leaves the other calls alone. -/
def Keeps (flag : ReadinessFlag) (id : ℕ) (move : Move) : Prop :=
  Fits move.flag id move.pc ∧ Frame flag move.flag id

theorem keeps_subscribe {pc : SubscribePc} (hfits : Fits flag id (.subscribe pc)) :
    Keeps flag id (subscribe flag id pc) := by
  obtain ⟨hlock, hreceiver, hunset, hempty, -⟩ := hfits
  cases pc with
  | load =>
    rw [subscribe]
    split_ifs with hready
    all_goals exact ⟨⟨hlock, hreceiver, by simp, by simp, trivial⟩, .refl⟩
  | lock =>
    rw [subscribe]
    split_ifs with hfree
    · exact ⟨⟨by simp, hreceiver, by simp, by simp, trivial⟩, .acquire hfree⟩
    · exact ⟨⟨hlock, hreceiver, by simp, by simp, trivial⟩, .refl⟩
  | recheck =>
    rw [subscribe]
    split_ifs with hready
    · exact ⟨⟨hlock, hreceiver, by simp, by simp, trivial⟩, .refl⟩
    · exact ⟨⟨hlock, hreceiver, by simpa using hready, by simp, trivial⟩, .refl⟩
  | insert =>
    rw [subscribe]
    split_ifs with hfresh
    · exact ⟨⟨hlock, hreceiver, fun _ => hunset rfl, by simp, trivial⟩,
        .guarded_by (hlock.mp rfl) fun h => h⟩
    · exact ⟨⟨hlock, hreceiver, hunset, by simp, trivial⟩, .guarded_by (hlock.mp rfl) fun h => h⟩
  | unlock token =>
    exact ⟨⟨by simp [subscribe], hreceiver, by simp [subscribe], by simp [subscribe], trivial⟩,
      .release (hlock.mp rfl)⟩

/-- There are no tokens once the flag is ready, but for the moment in which they are cleared. -/
def Settled (flag : ReadinessFlag) (pc : Pc) : Prop :=
  flag.ready = true → flag.tokens = ∅ ∨ pc = .markReady .clear

@[simp] theorem lock_send : flag.send.lock = flag.lock := by
  unfold ReadinessFlag.send
  split_ifs <;> rfl

@[simp] theorem receivers_send : flag.send.receivers = flag.receivers := by
  unfold ReadinessFlag.send
  split_ifs <;> rfl

@[simp] theorem ready_send : flag.send.ready = flag.ready := by
  unfold ReadinessFlag.send
  split_ifs <;> rfl

@[simp] theorem tokens_send : flag.send.tokens = flag.tokens := by
  unfold ReadinessFlag.send
  split_ifs <;> rfl

theorem keeps_markReady {pc : MarkPc} (hfits : Fits flag id (.markReady pc))
    (hsettled : flag.lock = some id → Settled flag (.markReady pc)) :
    Keeps flag id (markReady flag id pc) := by
  obtain ⟨hlock, hreceiver, hunset, hempty, -⟩ := hfits
  cases pc with
  | load token =>
    rw [markReady]
    split_ifs with hready hzero
    all_goals exact ⟨⟨hlock, hreceiver, by simp, by simp, trivial⟩, .refl⟩
  | lock token =>
    rw [markReady]
    split_ifs with hfree
    · exact ⟨⟨by simp, hreceiver, by simp, by simp, trivial⟩, .acquire hfree⟩
    · exact ⟨⟨hlock, hreceiver, by simp, by simp, trivial⟩, .refl⟩
  | remove token =>
    rw [markReady]
    split_ifs with hmem
    · have hunready : flag.ready = false := by
        by_contra hready
        rcases hsettled (hlock.mp rfl) (by simpa using hready) with hnone | hclear
        · rw [hnone] at hmem
          simp at hmem
        · simp at hclear
      exact ⟨⟨hlock, hreceiver, fun _ => hunready, by simp, trivial⟩,
        .guarded_by (hlock.mp rfl) fun h => h⟩
    · exact ⟨⟨hlock, hreceiver, by simp, by simp, trivial⟩, .refl⟩
  | store =>
    exact ⟨⟨hlock, hreceiver, by simp [markReady], by simp [markReady], trivial⟩,
      .guarded_by (hlock.mp rfl) fun _ => rfl⟩
  | clear =>
    exact ⟨⟨hlock, hreceiver, by simp [markReady], by simp [markReady], trivial⟩,
      .guarded_by (hlock.mp rfl) fun h => h⟩
  | unlock marked =>
    rw [markReady]
    split_ifs with hmarked
    all_goals exact ⟨⟨by simp, hreceiver, by simp, by simp, trivial⟩, .release (hlock.mp rfl)⟩
  | send =>
    refine ⟨⟨?_, ?_, by simp [markReady], by simp [markReady], trivial⟩, .send⟩
    · rw [markReady, lock_send]
      exact hlock
    · rw [markReady, receivers_send]
      exact hreceiver

/-- A call that has returned from `is_ready` holds nothing. -/
theorem fits_answer (hlock : flag.lock ≠ some id) (hreceiver : id ∉ flag.receivers)
    (waiting ready : Bool) :
    Fits (answer flag id waiting ready).flag id (answer flag id waiting ready).pc := by
  cases waiting <;> cases ready <;>
    exact ⟨by simpa [answer] using hlock, by simpa [answer] using hreceiver, by simp [answer],
      by simp [answer], trivial⟩

@[simp] theorem flag_answer (waiting ready : Bool) : (answer flag id waiting ready).flag = flag := by
  cases waiting <;> cases ready <;> rfl

theorem keeps_isReady {waiting : Bool} {pc : ReadyPc} (hfits : Fits flag id (.isReady waiting pc)) :
    Keeps flag id (isReady flag id waiting pc) := by
  obtain ⟨hlock, hreceiver, hunset, hempty, -⟩ := hfits
  have hnone : id ∉ flag.receivers := by simpa using hreceiver
  cases pc with
  | load =>
    have hother : flag.lock ≠ some id := by simpa using hlock
    rw [isReady]
    split_ifs with hready
    · refine ⟨fits_answer hother hnone waiting true, ?_⟩
      rw [flag_answer]
      exact .refl
    · exact ⟨⟨hlock, hreceiver, by simp, by simp, trivial⟩, .refl⟩
  | tryLock =>
    rw [isReady]
    split_ifs with hfree
    · exact ⟨⟨by simp, hreceiver, by simp, by simp, trivial⟩, .acquire hfree⟩
    · exact ⟨⟨hlock, hreceiver, by simp, by simp, trivial⟩, .refl⟩
  | check =>
    rw [isReady]
    split_ifs with hnone
    · exact ⟨⟨hlock, hreceiver, by simp, fun _ => hnone, trivial⟩, .refl⟩
    · exact ⟨⟨by simp, hreceiver, by simp, by simp, trivial⟩, .release (hlock.mp rfl)⟩
  | swap =>
    exact ⟨⟨hlock, hreceiver, by simp [isReady], by simp [isReady], trivial⟩,
      .guarded_by (hlock.mp rfl) fun _ => rfl⟩
  | unlock wasReady =>
    rw [isReady]
    split_ifs with hwas
    · refine ⟨fits_answer ?_ ?_ waiting true, ?_⟩
      · simp
      · exact hnone
      · rw [flag_answer]
        exact .release (hlock.mp rfl)
    · exact ⟨⟨by simp, hreceiver, by simp, by simp, trivial⟩, .release (hlock.mp rfl)⟩
  | send =>
    have hother : flag.send.lock ≠ some id := by simpa using hlock
    rw [isReady]
    refine ⟨fits_answer hother (by simpa using hnone) waiting true, ?_⟩
    rw [flag_answer]
    exact .send
  | reload =>
    have hother : flag.lock ≠ some id := by simpa using hlock
    rw [isReady]
    refine ⟨fits_answer hother hnone waiting flag.ready, ?_⟩
    rw [flag_answer]
    exact .refl

theorem keeps_readValue {seen : ℕ} (hlock : flag.lock ≠ some id)
    (hreceiver : id ∈ flag.receivers) (hseen : seen ≤ flag.version) :
    Keeps flag id (readValue flag id seen) := by
  rw [readValue]
  split_ifs with hvalue
  · exact ⟨⟨by simpa using hlock, by simp, by simp, by simp, trivial⟩,
      .withReceivers (by simp +contextual)⟩
  · exact ⟨⟨by simpa using hlock, by simpa using hreceiver, by simp, by simp, hseen,
      fun h => absurd h hvalue⟩, .refl⟩

theorem keeps_waitReady {pc : WaitPc} (hfits : Fits flag id (.waitReady pc)) :
    Keeps flag id (waitReady flag id pc) := by
  obtain ⟨hlock, hreceiver, -, -, hseen⟩ := hfits
  cases pc with
  | subscribe =>
    exact ⟨⟨hlock, by simp [waitReady], by simp [waitReady], by simp [waitReady], le_rfl⟩,
      .withReceivers (by simp +contextual)⟩
  | borrow seen | recheck seen =>
    exact keeps_readValue (by simpa using hlock) (hreceiver.mp rfl) hseen
  | changed seen =>
    rw [waitReady]
    split_ifs with hsame
    · exact ⟨⟨hlock, hreceiver, by simp, by simp, hseen⟩, .refl⟩
    · exact ⟨⟨hlock, by simpa using hreceiver, by simp, by simp, le_rfl⟩, .refl⟩

theorem keeps_advance (hfits : Fits flag id pc) (hsettled : flag.lock = some id → Settled flag pc) :
    Keeps flag id (advance flag id pc) := by
  cases pc with
  | unused | returned => exact ⟨hfits, .refl⟩
  | subscribe pc => exact keeps_subscribe hfits
  | markReady pc => exact keeps_markReady hfits hsettled
  | isReady waiting pc => exact keeps_isReady hfits
  | waitReady pc => exact keeps_waitReady hfits

end Moves

/-! ## How the flag becomes ready -/

namespace Output

@[simp] def isAnnouncement : Output → Bool
  | .announced _ => true
  | .subscribed _ _ | .marked _ _ | .isReady _ _ | .waited _ => false

@[simp] def isMark : Output → Bool
  | .marked _ success => success
  | .subscribed _ _ | .announced _ | .isReady _ _ | .waited _ => false

end Output

open Output

/-- What an operation has to do with the flag becoming ready. -/
inductive Readying (flag : ReadinessFlag) (pc : Pc) (move : Move) : Prop where
  | nothing (hbefore : pc.isSetting = false) (hafter : move.pc.isSetting = false)
      (hready : move.flag.ready = flag.ready) (hvalue : move.flag.value = flag.value)
      (hversion : move.flag.version = flag.version)
      (htokens : flag.ready = true → move.flag.tokens ⊆ flag.tokens)
      (hannounced : move.outputs.countP isAnnouncement = 0)
      (hmarked : move.outputs.countP isMark = 0)
  | sets (hbefore : pc.isSetting = false) (hafter : move.pc.isSetting = true)
      (hunready : flag.ready = false) (hready : move.flag.ready = true)
      (hvalue : move.flag.value = flag.value) (hversion : move.flag.version = flag.version)
      (htokens : move.flag.tokens = ∅ ∨ move.pc = .markReady .clear) (hquiet : move.outputs = [])
  | goesOn (hbefore : pc.isSetting = true) (hafter : move.pc.isSetting = true)
      (hready : move.flag.ready = flag.ready) (hvalue : move.flag.value = flag.value)
      (hversion : move.flag.version = flag.version)
      (htokens : move.flag.tokens = ∅ ∨
        move.flag.tokens = flag.tokens ∧ pc ≠ .markReady .clear) (hquiet : move.outputs = [])
  | announces (hbefore : pc.isSetting = true) (hsending : pc.isSending = true)
      (hafter : move.pc = .returned) (hflag : move.flag = flag.send)
      (hannounced : move.outputs.countP isAnnouncement = 1)
      (hmarked : move.outputs.countP isMark ≤ 1)

section Readying

variable {flag : ReadinessFlag} {id : ℕ} {pc : Pc}

/-- An operation that leaves the flag and the tokens as they are. -/
theorem Readying.of_flag {move : Move} (hbefore : pc.isSetting = false)
    (hafter : move.pc.isSetting = false) (hready : move.flag.ready = flag.ready)
    (hvalue : move.flag.value = flag.value) (hversion : move.flag.version = flag.version)
    (htokens : move.flag.tokens = flag.tokens)
    (hannounced : move.outputs.countP isAnnouncement = 0)
    (hmarked : move.outputs.countP isMark = 0) : Readying flag pc move :=
  .nothing hbefore hafter hready hvalue hversion (fun _ => htokens.subset) hannounced hmarked

theorem readying_subscribe {pc : SubscribePc} (hfits : Fits flag id (.subscribe pc)) :
    Readying flag (.subscribe pc) (subscribe flag id pc) := by
  cases pc with
  | insert =>
    have hunready : flag.ready = false := hfits.unset rfl
    rw [subscribe]
    split_ifs
    · exact .nothing rfl rfl rfl rfl rfl (by simp [hunready]) rfl rfl
    · exact .of_flag rfl rfl rfl rfl rfl rfl rfl rfl
  | unlock token => exact .of_flag rfl rfl rfl rfl rfl rfl rfl rfl
  | _ =>
    rw [subscribe]
    split_ifs <;> exact .of_flag rfl rfl rfl rfl rfl rfl rfl rfl

theorem readying_markReady {pc : MarkPc} (hfits : Fits flag id (.markReady pc)) :
    Readying flag (.markReady pc) (markReady flag id pc) := by
  cases pc with
  | remove token =>
    rw [markReady]
    split_ifs
    · exact .nothing rfl rfl rfl rfl rfl (fun _ => Finset.erase_subset _ _) rfl rfl
    · exact .of_flag rfl rfl rfl rfl rfl rfl rfl rfl
  | store => exact .sets rfl rfl (hfits.unset rfl) rfl rfl rfl (.inr rfl) rfl
  | clear => exact .goesOn rfl rfl rfl rfl rfl (.inl rfl) rfl
  | unlock marked =>
    cases marked with
    | true => exact .goesOn rfl rfl rfl rfl rfl (.inr ⟨rfl, by simp⟩) rfl
    | false => exact .of_flag rfl rfl rfl rfl rfl rfl rfl rfl
  | send => exact .announces rfl rfl rfl rfl rfl le_rfl
  | _ =>
    rw [markReady]
    split_ifs <;> exact .of_flag rfl rfl rfl rfl rfl rfl rfl rfl

theorem readying_answer (hpc : pc.isSetting = false) (waiting ready : Bool) :
    Readying flag pc (answer flag id waiting ready) := by
  cases waiting <;> cases ready <;> exact .of_flag hpc rfl rfl rfl rfl rfl rfl rfl

theorem readying_isReady {waiting : Bool} {pc : ReadyPc} (hfits : Fits flag id (.isReady waiting pc)) :
    Readying flag (.isReady waiting pc) (isReady flag id waiting pc) := by
  cases pc with
  | load =>
    rw [isReady]
    split_ifs
    · exact readying_answer rfl waiting true
    · exact .of_flag rfl rfl rfl rfl rfl rfl rfl rfl
  | swap =>
    rw [isReady]
    cases hready : flag.ready with
    | true => exact .of_flag rfl rfl hready.symm rfl rfl rfl rfl rfl
    | false => exact .sets rfl rfl hready rfl rfl rfl (.inl (hfits.empty rfl)) rfl
  | unlock wasReady =>
    cases wasReady with
    | true => cases waiting <;> exact .of_flag rfl rfl rfl rfl rfl rfl rfl rfl
    | false => exact .goesOn rfl rfl rfl rfl rfl (.inr ⟨rfl, by simp⟩) rfl
  | send => cases waiting <;> exact .announces rfl rfl rfl rfl rfl (by simp [isReady, answer])
  | reload => exact readying_answer rfl waiting flag.ready
  | _ =>
    rw [isReady]
    split_ifs <;> exact .of_flag rfl rfl rfl rfl rfl rfl rfl rfl

theorem readying_readValue (seen : ℕ) (hpc : pc.isSetting = false) :
    Readying flag pc (readValue flag id seen) := by
  rw [readValue]
  split_ifs <;> exact .of_flag hpc rfl rfl rfl rfl rfl rfl rfl

theorem readying_advance (hfits : Fits flag id pc) : Readying flag pc (advance flag id pc) := by
  cases pc with
  | unused | returned => exact .of_flag rfl rfl rfl rfl rfl rfl rfl rfl
  | subscribe pc => exact readying_subscribe hfits
  | markReady pc => exact readying_markReady hfits
  | isReady waiting pc => exact readying_isReady hfits
  | waitReady pc =>
    cases pc with
    | subscribe => exact .of_flag rfl rfl rfl rfl rfl rfl rfl rfl
    | borrow seen | recheck seen => exact readying_readValue seen rfl
    | changed seen =>
      rw [advance, waitReady]
      split_ifs <;> exact .of_flag rfl rfl rfl rfl rfl rfl rfl rfl

theorem Readying.settled {move : Move} (hreadying : Readying flag pc move)
    (hsettled : Settled flag pc) : Settled move.flag move.pc := by
  intro hready
  cases hreadying with
  | nothing hbefore hafter hsame _ _ htokens _ _ =>
    have hwas : flag.ready = true := hsame ▸ hready
    rcases hsettled hwas with hnone | rfl
    · exact .inl (Finset.subset_empty.mp (hnone ▸ htokens hwas))
    · cases hbefore
  | sets _ _ _ _ _ _ htokens _ => exact htokens
  | goesOn _ _ hsame _ _ htokens _ =>
    rcases htokens with hnone | ⟨hkept, hclear⟩
    · exact .inl hnone
    · exact .inl (hkept ▸ (hsettled (hsame ▸ hready)).resolve_right hclear)
  | announces _ hsending _ hflag _ _ =>
    have hclear : pc ≠ .markReady .clear := by
      rintro rfl
      cases hsending
    rw [hflag, ready_send] at hready
    rw [hflag, tokens_send]
    exact .inl ((hsettled hready).resolve_right hclear)

end Readying

end Codex.Readiness
