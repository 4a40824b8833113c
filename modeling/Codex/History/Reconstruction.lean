import Codex.History.UserTurns
import Mathlib.Data.List.Sort

/-!
# Reconstructing a session from its rollout

A rollout without compactions is read twice.  From its end to its beginning it is cut into
segments, one per turn, and a rollback skips the last segments of user turns; the settings and
the reference context come from the newest segment that is left.  From its beginning to its end
the items are put into the history, and a rollback takes the last user turns off again.

The first reading counts turns and the second one messages.  Where a turn has one message that
begins a user turn, both leave the same turns (`reconstruct_inSync_iff`); where it has more, a
rollback of one turn takes the last message off and leaves the others, while the segment of the
turn is skipped as a whole.
-/

namespace Codex.History

open Text Sourced List

variable {τ ρ κ : Type*}

/-- The context of a turn: the settings that are restored from it, and the rest of it. -/
structure TurnContextItem (κ : Type*) where
  turnId : Option Str
  settings : κ
  rest : κ

inductive RolloutItem (τ ρ κ : Type*) where
  | responseItem (item : Sourced τ ρ)
  /-- With the item that it gives the model. -/
  | interAgentCommunication (item : Sourced τ ρ)
  | turnContext (context : TurnContextItem κ)
  | worldState (full : Bool)
  | turnStarted (turnId : Str)
  | turnComplete (turnId : Str)
  | turnAborted (turnId : Option Str)
  | userMessage
  | threadRolledBack (numTurns : ℕ)
  | other

/-! ## From the end to the beginning -/

/-- A segment, with the messages of it that begin a user turn. -/
structure ActiveReplaySegment (τ ρ κ : Type*) where
  turnId : Option Str
  countsAsUserTurn : Bool
  previousTurnSettings : Option κ
  referenceContextItem : Option (TurnContextItem κ)
  hasFullWorldState : Bool
  userMessages : List (Sourced τ ρ)

def ActiveReplaySegment.default : ActiveReplaySegment τ ρ κ := ⟨none, false, none, none, false, []⟩

/-- What the segments so far have settled, and the segments that were not skipped. -/
structure ReverseScan (τ ρ κ : Type*) where
  activeSegment : Option (ActiveReplaySegment τ ρ κ)
  pendingRollbackTurns : ℕ
  previousTurnSettings : Option κ
  referenceContextItem : Option (TurnContextItem κ)
  surviving : List (ActiveReplaySegment τ ρ κ)

namespace ReverseScan

def start : ReverseScan τ ρ κ := ⟨none, 0, none, none, []⟩

def segment (scan : ReverseScan τ ρ κ) : ActiveReplaySegment τ ρ κ := scan.activeSegment.getD .default

variable (scan : ReverseScan τ ρ κ) (segment : ActiveReplaySegment τ ρ κ)

def withSegment : ReverseScan τ ρ κ :=
  { scan with activeSegment := some segment }

/-- A segment is complete: a pending rollback takes it, and else it survives and is a baseline if it
counts as a user turn or has a full world state. -/
def finalizeActiveSegment : ReverseScan τ ρ κ :=
  if 0 < scan.pendingRollbackTurns then
    { scan with
      activeSegment := none
      pendingRollbackTurns :=
        if segment.countsAsUserTurn then scan.pendingRollbackTurns - 1
        else scan.pendingRollbackTurns }
  else
    let hasContextBaseline := segment.countsAsUserTurn || segment.hasFullWorldState
    { scan with
      activeSegment := none
      previousTurnSettings :=
        if scan.previousTurnSettings.isNone && hasContextBaseline then segment.previousTurnSettings
        else scan.previousTurnSettings
      referenceContextItem :=
        if scan.referenceContextItem.isNone && hasContextBaseline then segment.referenceContextItem
        else scan.referenceContextItem
      surviving := segment :: scan.surviving }

end ReverseScan

def turnIdsAreCompatible (activeTurnId itemTurnId : Option Str) : Bool :=
  activeTurnId.all fun turnId => itemTurnId.all (· = turnId)

/-- The turn that was started last, going on from here to the beginning. -/
def precedingTurnId (items : List (RolloutItem τ ρ κ)) : Option Str :=
  items.findSome? fun
    | .turnStarted turnId => some turnId
    | _ => none

variable (reading : Reading ρ)

/-- One item of the scan from the newest to the oldest. -/
def scanItem (preceding : Option Str) (scan : ReverseScan τ ρ κ) :
    RolloutItem τ ρ κ → ReverseScan τ ρ κ
  | .threadRolledBack numTurns =>
    { scan with pendingRollbackTurns := scan.pendingRollbackTurns + numTurns }
  | .turnComplete turnId =>
    if turnIdsAreCompatible preceding (some turnId) then
      scan.withSegment { scan.segment with turnId := scan.segment.turnId.or (some turnId) }
    else scan
  | .turnAborted turnId =>
    if turnIdsAreCompatible preceding turnId then
      match scan.activeSegment with
      | some segment => scan.withSegment { segment with turnId := segment.turnId.or turnId }
      | none =>
        match turnId with
        | some turnId => scan.withSegment { ActiveReplaySegment.default with turnId := some turnId }
        | none => scan
    else scan
  | .userMessage => scan.withSegment { scan.segment with countsAsUserTurn := true }
  | .turnContext context =>
    let segment := { scan.segment with turnId := scan.segment.turnId.or context.turnId }
    if turnIdsAreCompatible segment.turnId context.turnId then
      scan.withSegment { segment with
        previousTurnSettings := some context.settings
        referenceContextItem := segment.referenceContextItem.or (some context) }
    else scan.withSegment segment
  | .worldState full =>
    scan.withSegment { scan.segment with
      hasFullWorldState := scan.segment.hasFullWorldState || full }
  | .turnStarted turnId =>
    match scan.activeSegment with
    | some segment =>
      if turnIdsAreCompatible segment.turnId (some turnId) then
        scan.finalizeActiveSegment { segment with turnId := segment.turnId.or (some turnId) }
      else scan
    | none => scan
  | .responseItem item =>
    scan.withSegment { scan.segment with
      countsAsUserTurn := scan.segment.countsAsUserTurn || item.isBoundary reading
      userMessages := [item].filter (isBoundary reading) ++ scan.segment.userMessages }
  | .interAgentCommunication item =>
    scan.withSegment { scan.segment with
      countsAsUserTurn := true
      userMessages := [item].filter (isBoundary reading) ++ scan.segment.userMessages }
  | .other => scan

/-- The items, the newest first. -/
def reverseScan : List (RolloutItem τ ρ κ) → ReverseScan τ ρ κ → ReverseScan τ ρ κ
  | [], scan =>
    match scan.activeSegment with
    | some segment => scan.finalizeActiveSegment segment
    | none => scan
  | item :: older, scan =>
    reverseScan older (scanItem reading (precedingTurnId (item :: older)) scan item)

/-! ## From the beginning to the end -/

def replayItem [Inhabited ρ] (history : List (Sourced τ ρ)) : RolloutItem τ ρ κ → List (Sourced τ ρ)
  | .responseItem item => recordItem reading history item
  | .interAgentCommunication item => recordItem reading history item
  | .threadRolledBack numTurns => dropLastNUserTurns reading numTurns history
  | _ => history

structure RolloutReconstruction (τ ρ κ : Type*) where
  history : List (Sourced τ ρ)
  previousTurnSettings : Option κ
  referenceContextItem : Option (TurnContextItem κ)
  surviving : List (ActiveReplaySegment τ ρ κ)

def reconstructRollout [Inhabited ρ] (items : List (RolloutItem τ ρ κ)) :
    RolloutReconstruction τ ρ κ :=
  let scan := reverseScan reading items.reverse .start
  { history := items.foldl (replayItem reading) []
    previousTurnSettings := scan.previousTurnSettings
    referenceContextItem := scan.referenceContextItem
    surviving := scan.surviving }

/-! ## Rollouts made of turns -/

/-- What a turn consists of. -/
inductive TurnItem (ρ κ : Type*) where
  | responseItem (envelope : ResponseItemEnvelope ρ)
  /-- The context of this turn, with or without its id. -/
  | turnContext (named : Bool) (settings rest : κ)
  | worldState (full : Bool)
  | userMessage
  | other

structure Turn (ρ κ : Type*) where
  id : Str
  items : List (TurnItem ρ κ)

inductive Entry (ρ κ : Type*) where
  | turn (turn : Turn ρ κ)
  | rolledBack (numTurns : ℕ)

def TurnItem.rolloutItem (id : Str) (number : ℕ) : TurnItem ρ κ → RolloutItem ℕ ρ κ
  | .responseItem envelope => .responseItem ⟨number, envelope⟩
  | .turnContext named settings rest => .turnContext ⟨if named then some id else none, settings, rest⟩
  | .worldState full => .worldState full
  | .userMessage => .userMessage
  | .other => .other

open TurnItem

variable (turn : Turn ρ κ)

def Turn.rolloutItems (number : ℕ) : List (RolloutItem ℕ ρ κ) :=
  .turnStarted turn.id :: (turn.items.map (rolloutItem turn.id number) ++ [.turnComplete turn.id])

/-- The rollout, its items labelled with the number of their turn. -/
def rolloutItems (entries : List (Entry ρ κ)) : List (RolloutItem ℕ ρ κ) :=
  entries.zipIdx.flatMap fun
    | (.turn turn, number) => turn.rolloutItems number
    | (.rolledBack numTurns, _) => [.threadRolledBack numTurns]

namespace Turn

def userMessages (number : ℕ) : List (Sourced ℕ ρ) :=
  (turn.items.filterMap fun
    | .responseItem envelope => some ⟨number, envelope⟩
    | _ => none).filter (isBoundary reading)

def contexts : List (TurnContextItem κ) :=
  turn.items.filterMap fun
    | .turnContext named settings rest => some ⟨if named then some turn.id else none, settings, rest⟩
    | _ => none

def settings : Option κ := turn.contexts.head?.map TurnContextItem.settings

def reference : Option (TurnContextItem κ) := turn.contexts.getLast?

end Turn

section InSync

variable [Inhabited ρ] (entries : List (Entry ρ κ))

/-- The history's messages that begin a user turn and are of the turn of that number. -/
def messagesInHistory (number : ℕ) : List (Sourced ℕ ρ) :=
  (reconstructRollout reading (rolloutItems entries)).history.filter fun item =>
    item.isBoundary reading && item.source = number

/-- The turn's segment is one of those that are not skipped. -/
def Survives (number : ℕ) : Prop :=
  ∃ segment ∈ (reconstructRollout reading (rolloutItems entries)).surviving,
    ∃ message ∈ segment.userMessages, message.source = number

/-- The turns that have a message in the history, the newest one last. -/
def turnsInHistory : List (Turn ρ κ) :=
  entries.zipIdx.filterMap fun
    | (.turn turn, number) => if messagesInHistory reading entries number = [] then none else some turn
    | _ => none

/-- The history and the restored metadata are of the same turns. -/
structure InSync : Prop where
  kept : ∀ number turn, entries[number]? = some (.turn turn) → Survives reading entries number →
    messagesInHistory reading entries number = turn.userMessages reading number
  dropped : ∀ number, ¬Survives reading entries number →
    messagesInHistory reading entries number = []
  settings : (reconstructRollout reading (rolloutItems entries)).previousTurnSettings =
    (turnsInHistory reading entries).reverse.findSome? Turn.settings
  reference : (reconstructRollout reading (rolloutItems entries)).referenceContextItem =
    (turnsInHistory reading entries).reverse.findSome? Turn.reference

end InSync

/-! ## The segment of a turn -/

section Segment

variable {reading}

/-- The segment with one more item of its turn, going back. -/
def ActiveReplaySegment.add (reading : Reading ρ) (id : Str) (number : ℕ) (item : TurnItem ρ κ)
    (segment : ActiveReplaySegment ℕ ρ κ) : ActiveReplaySegment ℕ ρ κ :=
  match item with
  | .responseItem envelope =>
    { segment with
      countsAsUserTurn :=
        segment.countsAsUserTurn || isBoundary reading ⟨number, envelope⟩
      userMessages :=
        [⟨number, envelope⟩].filter (isBoundary reading) ++ segment.userMessages }
  | .turnContext named settings rest =>
    { segment with
      previousTurnSettings := some settings
      referenceContextItem := segment.referenceContextItem.or
        (some ⟨if named then some id else none, settings, rest⟩) }
  | .worldState full => { segment with hasFullWorldState := segment.hasFullWorldState || full }
  | .userMessage => { segment with countsAsUserTurn := true }
  | .other => segment

/-- The segment of a turn, once all of its items have been read. -/
def Turn.segment (reading : Reading ρ) (turn : Turn ρ κ) (number : ℕ) : ActiveReplaySegment ℕ ρ κ :=
  turn.items.foldr (ActiveReplaySegment.add reading turn.id number)
    { ActiveReplaySegment.default with turnId := some turn.id }

variable (older : List (RolloutItem ℕ ρ κ))

theorem reverseScan_turnItems (scan : ReverseScan ℕ ρ κ) (id : Str) (number : ℕ)
    (items : List (TurnItem ρ κ)) {segment : ActiveReplaySegment ℕ ρ κ}
    (hid : segment.turnId = some id) :
    reverseScan reading ((items.map (rolloutItem id number)).reverse ++ older)
        (scan.withSegment segment) =
      reverseScan reading older
        (scan.withSegment (items.foldr (ActiveReplaySegment.add reading id number) segment)) ∧
    (items.foldr (ActiveReplaySegment.add reading id number) segment).turnId = some id := by
  induction items using List.reverseRecOn generalizing segment with
  | nil => exact ⟨rfl, hid⟩
  | append_singleton items item ih =>
    have hadd : (segment.add reading id number item).turnId = segment.turnId := by
      cases item <;> rfl
    have hscan : ∀ preceding, scanItem reading preceding (scan.withSegment segment)
        (item.rolloutItem id number) = scan.withSegment (segment.add reading id number item) := by
      cases item with
      | turnContext named settings rest =>
        cases named <;> simp [rolloutItem, scanItem, ReverseScan.withSegment, ReverseScan.segment,
          ActiveReplaySegment.add, turnIdsAreCompatible, hid]
      | _ => exact fun _ => rfl
    rw [map_append, reverse_append, map_singleton, reverse_singleton,
      cons_append, cons_append, reverseScan, hscan, foldr_append]
    exact ih (hadd.trans hid)

theorem precedingTurnId_turnItems (id : Str) (number : ℕ) (items : List (TurnItem ρ κ)) :
    precedingTurnId ((items.map (rolloutItem id number)).reverse ++
      .turnStarted id :: older) = some id := by
  have hitems : precedingTurnId (items.map (rolloutItem id number)).reverse = none := by
    rw [precedingTurnId, findSome?_eq_none_iff]
    intro item hitem
    obtain ⟨turnItem, -, rfl⟩ := mem_map.mp (mem_reverse.mp hitem)
    cases turnItem <;> rfl
  unfold precedingTurnId at hitems ⊢
  rw [findSome?_append, hitems]
  rfl

/-- A turn is finalised as its segment. -/
theorem reverseScan_turn {scan : ReverseScan ℕ ρ κ} (hactive : scan.activeSegment = none)
    (turn : Turn ρ κ) (number : ℕ) :
    reverseScan reading ((turn.rolloutItems number).reverse ++ older) scan =
      reverseScan reading older (scan.finalizeActiveSegment (turn.segment reading number)) := by
  have hsplit : (turn.rolloutItems number).reverse ++ older =
      .turnComplete turn.id :: ((turn.items.map (rolloutItem turn.id number)).reverse ++
        .turnStarted turn.id :: older) := by
    simp [Turn.rolloutItems]
  have hpreceding : precedingTurnId (.turnComplete turn.id ::
      ((turn.items.map (rolloutItem turn.id number)).reverse ++
        .turnStarted turn.id :: older)) = some turn.id :=
    precedingTurnId_turnItems older turn.id number turn.items
  have hcomplete : scanItem reading (some turn.id) scan (.turnComplete turn.id) =
      scan.withSegment { ActiveReplaySegment.default with turnId := some turn.id } := by
    simp [scanItem, turnIdsAreCompatible, ReverseScan.segment, hactive, ActiveReplaySegment.default]
  have hread : reverseScan reading _ _ = _ ∧ (turn.segment reading number).turnId = some turn.id :=
    reverseScan_turnItems (.turnStarted turn.id :: older) scan turn.id number turn.items rfl
  obtain ⟨hitems, hturn⟩ := hread
  rw [hsplit, reverseScan, hpreceding, hcomplete, hitems]
  change reverseScan reading older (scanItem reading _ (scan.withSegment (turn.segment reading number))
    _) = _
  have hsame : { turn.segment reading number with turnId := some turn.id } =
      turn.segment reading number := by
    rw [← hturn]
  simp [scanItem, ReverseScan.withSegment, hturn, turnIdsAreCompatible, hsame,
    ReverseScan.finalizeActiveSegment]

/-- What the segment holds of the turn. -/
theorem segment_spec (number : ℕ) :
    (turn.segment reading number).userMessages = turn.userMessages reading number ∧
      (turn.segment reading number).previousTurnSettings = turn.settings ∧
      (turn.segment reading number).referenceContextItem = turn.reference ∧
      (turn.userMessages reading number ≠ [] →
        (turn.segment reading number).countsAsUserTurn = true) := by
  obtain ⟨id, items⟩ := turn
  induction items with
  | nil => exact ⟨rfl, rfl, rfl, fun h => absurd rfl h⟩
  | cons item items ih =>
    obtain ⟨hmessages, hsettings, hreference, hcounts⟩ := ih
    have hcons : Turn.segment reading ⟨id, item :: items⟩ number =
        ActiveReplaySegment.add reading id number item (Turn.segment reading ⟨id, items⟩ number) :=
      rfl
    rw [hcons]
    cases item with
    | responseItem envelope =>
      refine ⟨?_, hsettings, hreference, ?_⟩
      · simp only [ActiveReplaySegment.add, hmessages, Turn.userMessages, ← filter_append]
        rfl
      · intro hne
        cases hboundary : isBoundary reading ⟨number, envelope⟩ with
        | true => simp [ActiveReplaySegment.add, hboundary]
        | false =>
          have hrest : (Turn.userMessages reading ⟨id, items⟩ number : List _) ≠ [] := by
            simpa [Turn.userMessages, hboundary] using hne
          simp [ActiveReplaySegment.add, hcounts hrest]
    | turnContext named settings rest =>
      refine ⟨hmessages, rfl, ?_, hcounts⟩
      have hlast : Turn.reference ⟨id, .turnContext named settings rest :: items⟩ =
          (Turn.reference (⟨id, items⟩ : Turn ρ κ)).or
            (some ⟨if named then some id else none, settings, rest⟩) := by
        simp [Turn.reference, Turn.contexts, getLast?_cons]
      rw [hlast, ← hreference]
      rfl
    | worldState full | other => exact ⟨hmessages, hsettings, hreference, hcounts⟩
    | userMessage => exact ⟨hmessages, hsettings, hreference, fun _ => rfl⟩

end Segment

/-! ## The turns that stand -/

section Standing

variable {reading}

variable (entries : List (Entry ρ κ × ℕ))

/-- The turns that are left when each rollback takes the last ones off. -/
def standing : List (Turn ρ κ × ℕ) :=
  entries.foldl (fun turns entry =>
      match entry with
      | (.turn turn, number) => turns ++ [(turn, number)]
      | (.rolledBack numTurns, _) => withoutLast numTurns turns)
    []

def scanEntry (reading : Reading ρ) (scan : ReverseScan ℕ ρ κ) : Entry ρ κ × ℕ → ReverseScan ℕ ρ κ
  | (.turn turn, number) => scan.finalizeActiveSegment (turn.segment reading number)
  | (.rolledBack numTurns, _) =>
    { scan with pendingRollbackTurns := scan.pendingRollbackTurns + numTurns }

variable {scan : ReverseScan ℕ ρ κ}

theorem finalizeActiveSegment_zero {segment : ActiveReplaySegment ℕ ρ κ}
    (hpending : scan.pendingRollbackTurns = 0) (hcounts : segment.countsAsUserTurn = true) :
    scan.finalizeActiveSegment segment =
      { activeSegment := none
        pendingRollbackTurns := 0
        previousTurnSettings := scan.previousTurnSettings.or segment.previousTurnSettings
        referenceContextItem := scan.referenceContextItem.or segment.referenceContextItem
        surviving := segment :: scan.surviving } := by
  unfold ReverseScan.finalizeActiveSegment
  cases hsettings : scan.previousTurnSettings <;> cases hreference : scan.referenceContextItem <;>
    simp [hpending, hcounts]

theorem rolloutItems_concat (entries : List (Entry ρ κ)) (entry : Entry ρ κ) :
    rolloutItems (entries ++ [entry]) = rolloutItems entries ++
      match entry with
      | .turn turn => turn.rolloutItems entries.length
      | .rolledBack numTurns => [.threadRolledBack numTurns] := by
  cases entry <;> simp [rolloutItems, zipIdx_append]

theorem zipIdx_concat {α : Type*} (items : List α) (item : α) :
    (items ++ [item]).zipIdx = items.zipIdx ++ [(item, items.length)] := by
  simp [zipIdx_append]

/-- The rollout is scanned entry by entry. -/
theorem reverseScan_rolloutItems (entries : List (Entry ρ κ))
    (hactive : scan.activeSegment = none) :
    reverseScan reading (rolloutItems entries).reverse scan =
      entries.zipIdx.reverse.foldl (scanEntry reading) scan := by
  induction entries using List.reverseRecOn generalizing scan with
  | nil => simp [rolloutItems, reverseScan, hactive]
  | append_singleton entries entry ih =>
    rw [rolloutItems_concat, zipIdx_concat, reverse_append, reverse_append]
    cases entry with
    | turn turn =>
      rw [reverseScan_turn _ hactive]
      apply ih
      unfold ReverseScan.finalizeActiveSegment
      split_ifs <;> rfl
    | rolledBack numTurns => exact ih hactive

theorem findSome?_reverse_concat {α β : Type*} (f : α → Option β) (items : List α) (item : α) :
    (items ++ [item]).reverse.findSome? f = (f item).or (items.reverse.findSome? f) := by
  rw [reverse_append, reverse_singleton, singleton_append, findSome?_cons]
  cases f item <;> rfl

theorem withoutLast_zero {α : Type*} (items : List α) : withoutLast 0 items = items := by
  simp [withoutLast]

theorem withoutLast_concat {α : Type*} (n : ℕ) (items : List α) (item : α) :
    withoutLast (n + 1) (items ++ [item]) = withoutLast n items := by
  simp [withoutLast, take_append]

theorem withoutLast_withoutLast {α : Type*} (m n : ℕ) (items : List α) :
    withoutLast m (withoutLast n items) = withoutLast (m + n) items := by
  simp only [withoutLast, length_take, take_take]
  congr 1
  omega

theorem standing_concat (entry : Entry ρ κ) (number : ℕ) :
    standing (entries ++ [(entry, number)]) =
      match entry with
      | .turn turn => standing entries ++ [(turn, number)]
      | .rolledBack numTurns => withoutLast numTurns (standing entries) := by
  cases entry <;> simp [standing]

/-- What a scan that still has turns to skip makes of the rest. -/
structure Scanned (reading : Reading ρ) (scan result : ReverseScan ℕ ρ κ)
    (turns : List (Turn ρ κ × ℕ)) : Prop where
  surviving : result.surviving =
    turns.map (fun turn => turn.1.segment reading turn.2) ++ scan.surviving
  settings : result.previousTurnSettings =
    scan.previousTurnSettings.or (turns.reverse.findSome? fun turn => turn.1.settings)
  reference : result.referenceContextItem =
    scan.referenceContextItem.or (turns.reverse.findSome? fun turn => turn.1.reference)

theorem scanned_entries (scan : ReverseScan ℕ ρ κ)
    (hmessages : ∀ turn number, (.turn turn, number) ∈ entries →
      turn.userMessages reading number ≠ []) :
    Scanned reading scan (entries.reverse.foldl (scanEntry reading) scan)
      (withoutLast scan.pendingRollbackTurns (standing entries)) := by
  induction entries using List.reverseRecOn generalizing scan with
  | nil => exact ⟨by simp [standing, withoutLast], by simp [standing, withoutLast],
      by simp [standing, withoutLast]⟩
  | append_singleton entries entry ih =>
    obtain ⟨entry, number⟩ := entry
    have hrest : ∀ turn number, (.turn turn, number) ∈ entries →
        turn.userMessages reading number ≠ [] :=
      fun turn number hmem => hmessages turn number (mem_append_left _ hmem)
    rw [reverse_append, reverse_singleton, singleton_append, foldl_cons, standing_concat]
    cases entry with
    | rolledBack numTurns =>
      rw [withoutLast_withoutLast]
      have hscanned := ih (scanEntry reading scan (.rolledBack numTurns, number)) hrest
      exact ⟨hscanned.surviving, hscanned.settings, hscanned.reference⟩
    | turn turn =>
      obtain ⟨-, hsettings, hreference, hcounts⟩ := @segment_spec _ _ reading turn number
      have hcounts := hcounts (hmessages turn number (by simp))
      have hscanned := ih (scanEntry reading scan (.turn turn, number)) hrest
      cases hpending : scan.pendingRollbackTurns with
      | zero =>
        have hkept := finalizeActiveSegment_zero hpending hcounts
        rw [withoutLast_zero]
        rw [scanEntry, hkept] at hscanned ⊢
        obtain ⟨hsurviving, hset, href⟩ := hscanned
        rw [withoutLast_zero] at hsurviving hset href
        refine ⟨?_, ?_, ?_⟩
        · rw [hsurviving]
          simp
        · rw [hset, findSome?_reverse_concat, Option.or_assoc, hsettings]
        · rw [href, findSome?_reverse_concat, Option.or_assoc, hreference]
      | succ pending =>
        have hskipped : scan.finalizeActiveSegment (turn.segment reading number) =
            { scan with activeSegment := none, pendingRollbackTurns := pending } := by
          simp [ReverseScan.finalizeActiveSegment, hpending, hcounts]
        rw [withoutLast_concat]
        rw [scanEntry, hskipped] at hscanned ⊢
        exact ⟨hscanned.surviving, hscanned.settings, hscanned.reference⟩

/-- The standing turns are turns of the rollout, in its order. -/
theorem standing_spec (entries : List (Entry ρ κ)) :
    (∀ turn ∈ standing entries.zipIdx, entries[turn.2]? = some (.turn turn.1)) ∧
      (standing entries.zipIdx).Pairwise fun first second => first.2 < second.2 := by
  induction entries using List.reverseRecOn with
  | nil => exact ⟨by simp [standing], .nil⟩
  | append_singleton entries entry ih =>
    obtain ⟨hentries, hordered⟩ := ih
    have hlt : ∀ turn ∈ standing entries.zipIdx, turn.2 < entries.length := by
      intro turn hmem
      exact (List.getElem?_eq_some_iff.mp (hentries turn hmem)).1
    have hleft : ∀ turn ∈ standing entries.zipIdx,
        (entries ++ [entry])[turn.2]? = some (.turn turn.1) := by
      intro turn hmem
      rw [getElem?_append_left (hlt turn hmem)]
      exact hentries turn hmem
    rw [zipIdx_concat, standing_concat]
    cases entry with
    | turn turn =>
      refine ⟨forall_mem_append.mpr ⟨hleft, by simp⟩, ?_⟩
      · refine pairwise_append.mpr ⟨hordered, pairwise_singleton _ _, ?_⟩
        intro first hfirst second hsecond
        obtain rfl := mem_singleton.mp hsecond
        exact hlt first hfirst
    | rolledBack numTurns =>
      exact ⟨fun turn hmem => hleft turn (mem_of_mem_take hmem),
        hordered.sublist (take_sublist _ _)⟩

end Standing

/-! ## The messages of the history -/

section Messages

variable {reading}

/-- The messages that begin a user turn, of the turns one after another. -/
def messagesOf (reading : Reading ρ) (turns : List (Turn ρ κ × ℕ)) : List (Sourced ℕ ρ) :=
  turns.flatMap fun turn => turn.1.userMessages reading turn.2

theorem source_of_mem_userMessages {turn : Turn ρ κ} {number : ℕ} {message : Sourced ℕ ρ}
    (h : message ∈ turn.userMessages reading number) : message.source = number := by
  obtain ⟨item, -, hitem⟩ := mem_filterMap.mp (mem_of_mem_filter h)
  cases item <;> simp at hitem
  rw [← hitem]

variable {turns : List (Turn ρ κ × ℕ)}

theorem mem_messagesOf {message : Sourced ℕ ρ} :
    message ∈ messagesOf reading turns ↔
      ∃ turn ∈ turns, message ∈ turn.1.userMessages reading turn.2 :=
  mem_flatMap

theorem messagesOf_append (first second : List (Turn ρ κ × ℕ)) :
    messagesOf reading (first ++ second) = messagesOf reading first ++ messagesOf reading second :=
  flatMap_append

theorem filter_source_of_not_mem {number : ℕ} (h : ∀ turn ∈ turns, turn.2 ≠ number) :
    ((messagesOf reading turns).filter fun message => message.source = number) = [] := by
  rw [filter_eq_nil_iff]
  intro message hmessage
  obtain ⟨turn, hturn, hmem⟩ := mem_messagesOf.mp hmessage
  simpa [source_of_mem_userMessages hmem] using h turn hturn

theorem filter_source_of_mem {turn : Turn ρ κ} {number : ℕ}
    (hordered : turns.Pairwise fun first second => first.2 < second.2)
    (hmem : (turn, number) ∈ turns) :
    ((messagesOf reading turns).filter fun message => message.source = number) =
      turn.userMessages reading number := by
  obtain ⟨before, after, rfl⟩ := append_of_mem hmem
  obtain ⟨-, hafter, hbefore⟩ := pairwise_append.mp hordered
  have hown : ((turn.userMessages reading number).filter fun message => message.source = number) =
      turn.userMessages reading number := by
    rw [filter_eq_self]
    intro message hmessage
    simpa using source_of_mem_userMessages hmessage
  have hcons : messagesOf reading ((turn, number) :: after) =
      turn.userMessages reading number ++ messagesOf reading after := rfl
  rw [messagesOf_append, hcons, filter_append, filter_append, hown,
    filter_source_of_not_mem fun other hother => (hbefore other hother _ mem_cons_self).ne,
    filter_source_of_not_mem fun other hother =>
      ((pairwise_cons.mp hafter).1 other hother).ne']
  simp

variable [Inhabited ρ]

/-- The messages of the history that begin a user turn. -/
def historyMessages (reading : Reading ρ) (entries : List (Entry ρ κ)) : List (Sourced ℕ ρ) :=
  (reconstructRollout reading (rolloutItems entries)).history.filter (isBoundary reading)

theorem messagesInHistory_eq (entries : List (Entry ρ κ)) (number : ℕ) :
    messagesInHistory reading entries number =
      (historyMessages reading entries).filter fun message => message.source = number := by
  rw [historyMessages, filter_filter]
  refine filter_congr fun item _ => ?_
  exact Bool.and_comm _ _

theorem filter_replay_turn (number : ℕ) (history : List (Sourced ℕ ρ)) :
    ((turn.rolloutItems number).foldl (replayItem reading) history).filter (isBoundary reading) =
      history.filter (isBoundary reading) ++ turn.userMessages reading number := by
  obtain ⟨id, items⟩ := turn
  rw [Turn.rolloutItems, foldl_cons, foldl_append]
  change ((items.map (rolloutItem id number)).foldl (replayItem reading) history).filter _ = _
  induction items generalizing history with
  | nil => simp [Turn.userMessages]
  | cons item items ih =>
    rw [map_cons, foldl_cons, ih]
    cases item with
    | responseItem envelope =>
      rw [rolloutItem, replayItem, filter_recordItem, List.append_assoc]
      simp only [Turn.userMessages, ← filter_append]
      rfl
    | _ => rfl

theorem historyMessages_turn (entries : List (Entry ρ κ)) (turn : Turn ρ κ) :
    historyMessages reading (entries ++ [.turn turn]) =
      historyMessages reading entries ++ turn.userMessages reading entries.length := by
  simp only [historyMessages, reconstructRollout, rolloutItems_concat, foldl_append]
  exact filter_replay_turn turn _ _

theorem historyMessages_rolledBack (entries : List (Entry ρ κ)) (numTurns : ℕ) :
    historyMessages reading (entries ++ [.rolledBack numTurns]) =
      (withoutLast numTurns (historyMessages reading entries)).filter fun message =>
        !isAcceptedLater reading (cutOrder reading numTurns (historyMessages reading entries))
          message := by
  simp only [historyMessages, reconstructRollout, rolloutItems_concat, foldl_append]
  exact filter_dropLastNUserTurns numTurns _

end Messages

/-! ## Rollbacks that take off whole turns -/

section Aligned

variable {reading}

/-- A rollback takes off what the turns are: of the last turns' messages no more than their
number is cut off unless the others count as said later, and no message of the turns before does. -/
structure Aligned (reading : Reading ρ) (numTurns : ℕ) (turns : List (Turn ρ κ × ℕ)) : Prop where
  taken : ∀ message ∈ withoutLast numTurns (messagesOf reading (turns.drop (turns.length - numTurns))),
    isAcceptedLater reading (cutOrder reading numTurns
      (messagesOf reading (turns.drop (turns.length - numTurns)))) message = true
  left : ∀ message ∈ messagesOf reading (withoutLast numTurns turns),
    isAcceptedLater reading (cutOrder reading numTurns
      (messagesOf reading (turns.drop (turns.length - numTurns)))) message = false

theorem length_le_length_messagesOf {turns : List (Turn ρ κ × ℕ)}
    (hne : ∀ turn ∈ turns, turn.1.userMessages reading turn.2 ≠ []) :
    turns.length ≤ (messagesOf reading turns).length := by
  induction turns with
  | nil => rfl
  | cons turn turns ih =>
    have hpos := length_pos_of_ne_nil (hne turn mem_cons_self)
    have hrest := ih fun other hother => hne other (mem_cons_of_mem _ hother)
    have hcons : messagesOf reading (turn :: turns) =
        turn.1.userMessages reading turn.2 ++ messagesOf reading turns := rfl
    rw [hcons, length_append, length_cons]
    omega

/-- The messages that a rollback of some turns leaves: those of the turns that stay, and what is
too many in the turns that go. -/
theorem withoutLast_messagesOf (numTurns : ℕ) {turns : List (Turn ρ κ × ℕ)}
    (hne : ∀ turn ∈ turns, turn.1.userMessages reading turn.2 ≠ []) :
    withoutLast numTurns (messagesOf reading turns) =
        messagesOf reading (withoutLast numTurns turns) ++
          withoutLast numTurns (messagesOf reading (turns.drop (turns.length - numTurns))) ∧
      cutOrder reading numTurns (messagesOf reading turns) =
        cutOrder reading numTurns (messagesOf reading (turns.drop (turns.length - numTurns))) := by
  have hsplit : messagesOf reading turns = messagesOf reading (withoutLast numTurns turns) ++
      messagesOf reading (turns.drop (turns.length - numTurns)) := by
    rw [← messagesOf_append, withoutLast, take_append_drop]
  rcases Nat.lt_or_ge turns.length numTurns with hall | hsome
  · have hnone : turns.length - numTurns = 0 := by omega
    simp [hnone, withoutLast, messagesOf]
  · have htaken : numTurns ≤
        (messagesOf reading (turns.drop (turns.length - numTurns))).length := by
      have hlength : (turns.drop (turns.length - numTurns)).length ≤
          (messagesOf reading (turns.drop (turns.length - numTurns))).length :=
        length_le_length_messagesOf fun turn hturn => hne turn (mem_of_mem_drop hturn)
      rw [length_drop] at hlength
      omega
    rw [hsplit]
    generalize messagesOf reading (withoutLast numTurns turns) = left
    generalize messagesOf reading (turns.drop (turns.length - numTurns)) = taken at htaken
    have hcut : left.length + taken.length - numTurns = left.length + (taken.length - numTurns) := by
      omega
    constructor
    · rw [withoutLast, withoutLast, length_append, hcut, take_length_add_append]
    · rw [cutOrder, length_append, getElem?_append_right (by omega)]
      congr 2
      omega

/-- Each turn has a message that begins a user turn. -/
def EveryTurnSpoken (reading : Reading ρ) (entries : List (Entry ρ κ)) : Prop :=
  ∀ number (turn : Turn ρ κ), entries[number]? = some (.turn turn) →
    turn.userMessages reading number ≠ []

/-- At each rollback marker, it takes off what the turns are that stand there. -/
def RollbacksAligned (reading : Reading ρ) (entries : List (Entry ρ κ)) : Prop :=
  ∀ before numTurns, before ++ [.rolledBack numTurns] <+: entries →
    Aligned reading numTurns (standing before.zipIdx)

variable {entries : List (Entry ρ κ)}

theorem EveryTurnSpoken.of_prefix {before : List (Entry ρ κ)} (h : EveryTurnSpoken reading entries)
    (hbefore : before <+: entries) : EveryTurnSpoken reading before := by
  intro number turn hturn
  obtain ⟨after, rfl⟩ := hbefore
  have hlt : number < before.length := (List.getElem?_eq_some_iff.mp hturn).1
  exact h number turn (by rw [getElem?_append_left hlt, hturn])

theorem EveryTurnSpoken.standing (h : EveryTurnSpoken reading entries) :
    ∀ turn ∈ standing entries.zipIdx, turn.1.userMessages reading turn.2 ≠ [] :=
  fun turn hturn => h turn.2 turn.1 ((standing_spec entries).1 turn hturn)

variable [Inhabited ρ]

/-- With aligned rollbacks, the messages of the history are those of the standing turns. -/
theorem historyMessages_of_aligned (hspoken : EveryTurnSpoken reading entries)
    (haligned : RollbacksAligned reading entries) :
    historyMessages reading entries = messagesOf reading (standing entries.zipIdx) := by
  induction entries using List.reverseRecOn with
  | nil => rfl
  | append_singleton entries entry ih =>
    have hbefore : entries <+: entries ++ [entry] := prefix_append _ _
    have hmessages := ih (hspoken.of_prefix hbefore) fun before numTurns hmarker =>
      haligned before numTurns (hmarker.trans hbefore)
    rw [zipIdx_concat, standing_concat]
    cases entry with
    | turn turn =>
      rw [historyMessages_turn, hmessages]
      simp [messagesOf]
    | rolledBack numTurns =>
      obtain ⟨htaken, hleft⟩ := haligned entries numTurns prefix_rfl
      obtain ⟨hcut, horder⟩ := withoutLast_messagesOf numTurns (hspoken.of_prefix hbefore).standing
      rw [historyMessages_rolledBack, hmessages, hcut, horder, filter_append,
        filter_eq_self.mpr fun message hmessage => by simp [hleft message hmessage],
        filter_eq_nil_iff.mpr fun message hmessage => by simp [htaken message hmessage],
        append_nil]

end Aligned

/-! ## History and metadata -/

section Reconstruct

variable {reading} {entries : List (Entry ρ κ)}

theorem scanned_standing (hspoken : EveryTurnSpoken reading entries) :
    Scanned reading .start (reverseScan reading (rolloutItems entries).reverse .start)
      (standing entries.zipIdx) := by
  have hscanned : Scanned reading .start _ _ := scanned_entries entries.zipIdx .start
    fun turn number hmem => hspoken number turn (mem_zipIdx_iff_getElem?.mp hmem)
  rw [← reverseScan_rolloutItems entries rfl] at hscanned
  simpa [ReverseScan.start, withoutLast_zero] using hscanned

variable [Inhabited ρ]

section

variable (hspoken : EveryTurnSpoken reading entries)
include hspoken

/-- The segments that survive are those of the standing turns. -/
theorem survives_iff (number : ℕ) :
    Survives reading entries number ↔ ∃ turn, (turn, number) ∈ standing entries.zipIdx := by
  have hsurviving : (reconstructRollout reading (rolloutItems entries)).surviving =
      (standing entries.zipIdx).map fun turn => turn.1.segment reading turn.2 :=
    (scanned_standing hspoken).surviving.trans (append_nil _)
  constructor
  · rintro ⟨segment, hsegment, message, hmessage, rfl⟩
    rw [hsurviving] at hsegment
    obtain ⟨turn, hturn, rfl⟩ := mem_map.mp hsegment
    rw [(segment_spec turn.1 turn.2).1] at hmessage
    rw [source_of_mem_userMessages hmessage]
    exact ⟨turn.1, hturn⟩
  · rintro ⟨turn, hturn⟩
    obtain ⟨message, hmessage⟩ := exists_mem_of_ne_nil _ (hspoken.standing _ hturn)
    refine ⟨turn.segment reading number, ?_, message, ?_, source_of_mem_userMessages hmessage⟩
    · rw [hsurviving]
      exact mem_map_of_mem hturn
    · rw [(segment_spec turn number).1]
      exact hmessage

theorem messagesInHistory_ne_nil_iff
    (hmessages : historyMessages reading entries = messagesOf reading (standing entries.zipIdx))
    {turn : Turn ρ κ} {number : ℕ} (hturn : entries[number]? = some (.turn turn)) :
    messagesInHistory reading entries number ≠ [] ↔ (turn, number) ∈ standing entries.zipIdx := by
  obtain ⟨hentries, hordered⟩ := standing_spec entries
  rw [messagesInHistory_eq, hmessages]
  constructor
  · intro hne
    by_contra hgone
    refine hne (filter_source_of_not_mem fun other hother hnumber => hgone ?_)
    subst hnumber
    obtain rfl : other.1 = turn := by simpa [hturn] using (hentries _ hother).symm
    exact hother
  · intro hstands
    rw [filter_source_of_mem hordered hstands]
    exact hspoken number turn hturn

/-- The turns that have a message in the history are the standing ones. -/
theorem turnsInHistory_eq
    (hmessages : historyMessages reading entries = messagesOf reading (standing entries.zipIdx)) :
    turnsInHistory reading entries = (standing entries.zipIdx).map Prod.fst := by
  obtain ⟨hentries, hordered⟩ := standing_spec entries
  let numbered : List (Turn ρ κ × ℕ) := entries.zipIdx.filterMap fun
    | (.turn turn, number) =>
      if messagesInHistory reading entries number = [] then none else some (turn, number)
    | _ => none
  have hmap : turnsInHistory reading entries = numbered.map Prod.fst := by
    rw [map_filterMap]
    refine filterMap_congr fun entry _ => ?_
    obtain ⟨_ | _, number⟩ := entry
    · dsimp only
      split_ifs <;> rfl
    · rfl
  have hzip : entries.zipIdx.Pairwise fun first second => first.2 < second.2 := by
    rw [← pairwise_map, zipIdx_map_snd]
    exact pairwise_lt_range'
  have hnumbered : numbered.Pairwise fun first second => first.2 < second.2 := by
    refine hzip.filterMap _ ?_
    rintro ⟨_ | _, first⟩ ⟨_ | _, second⟩ hlt a ha b hb <;> simp at ha hb
    rw [← ha.2, ← hb.2]
    exact hlt
  have hmem : ∀ turn, turn ∈ numbered ↔ turn ∈ standing entries.zipIdx := by
    intro turn
    constructor
    · intro hturn
      obtain ⟨⟨_ | _, number⟩, hentry, hsome⟩ := mem_filterMap.mp hturn <;> simp at hsome
      obtain ⟨hne, rfl⟩ := hsome
      exact (messagesInHistory_ne_nil_iff hspoken hmessages
        (mem_zipIdx_iff_getElem?.mp hentry)).mp hne
    · intro hturn
      have hentry := hentries turn hturn
      have hne := (messagesInHistory_ne_nil_iff hspoken hmessages hentry).mpr hturn
      exact mem_filterMap.mpr
        ⟨(.turn turn.1, turn.2), mem_zipIdx_iff_getElem?.mpr hentry, by simp [hne]⟩
  rw [hmap, hnumbered.eq_of_mem_iff hordered hmem]

theorem inSync_of_historyMessages
    (hmessages : historyMessages reading entries = messagesOf reading (standing entries.zipIdx)) :
    InSync reading entries := by
  obtain ⟨hentries, hordered⟩ := standing_spec entries
  have hscanned := scanned_standing hspoken
  refine ⟨?_, ?_, ?_, ?_⟩
  · intro number turn hturn hsurvives
    obtain ⟨other, hother⟩ := (survives_iff hspoken number).mp hsurvives
    obtain rfl : other = turn := by simpa [hturn] using (hentries _ hother).symm
    rw [messagesInHistory_eq, hmessages, filter_source_of_mem hordered hother]
  · intro number hskipped
    rw [messagesInHistory_eq, hmessages]
    refine filter_source_of_not_mem fun turn hturn hnumber => hskipped ?_
    exact (survives_iff hspoken number).mpr ⟨turn.1, hnumber ▸ hturn⟩
  · rw [turnsInHistory_eq hspoken hmessages, ← map_reverse, findSome?_map]
    exact hscanned.settings
  · rw [turnsInHistory_eq hspoken hmessages, ← map_reverse, findSome?_map]
    exact hscanned.reference

end

/-- A marker behind which history and metadata are still in sync takes off whole turns. -/
theorem aligned_of_inSync {numTurns : ℕ}
    (hspoken : EveryTurnSpoken reading (entries ++ [.rolledBack numTurns]))
    (hmessages : historyMessages reading entries = messagesOf reading (standing entries.zipIdx))
    (hsync : InSync reading (entries ++ [.rolledBack numTurns])) :
    Aligned reading numTurns (standing entries.zipIdx) := by
  have hbefore := hspoken.of_prefix (prefix_append entries [.rolledBack numTurns])
  obtain ⟨hentries, -⟩ := standing_spec (entries ++ [.rolledBack numTurns])
  obtain ⟨-, hallOrdered⟩ := standing_spec entries
  obtain ⟨hcut, horder⟩ := withoutLast_messagesOf numTurns hbefore.standing
  have hhistory : historyMessages reading (entries ++ [.rolledBack numTurns]) = _ :=
    historyMessages_rolledBack entries numTurns
  rw [hmessages, hcut, horder] at hhistory
  have hstanding : standing (entries ++ [Entry.rolledBack numTurns]).zipIdx =
      withoutLast numTurns (standing entries.zipIdx) := by
    rw [zipIdx_concat, standing_concat]
  rw [hstanding] at hentries
  refine ⟨?_, ?_⟩
  · -- a message of a turn that goes is not in the history
    intro message hmessage
    by_contra hstays
    obtain ⟨turn, hturn, hmem⟩ := mem_messagesOf.mp (mem_of_mem_take hmessage)
    have hskipped : ¬Survives reading (entries ++ [.rolledBack numTurns]) turn.2 := by
      rw [survives_iff hspoken, hstanding]
      rintro ⟨other, hother⟩
      have hparts := hallOrdered
      rw [← take_append_drop ((standing entries.zipIdx).length - numTurns)
        (standing entries.zipIdx)] at hparts
      have hlt : turn.2 < turn.2 := (pairwise_append.mp hparts).2.2 _ hother _ hturn
      exact lt_irrefl _ hlt
    have hnone := hsync.dropped turn.2 hskipped
    rw [messagesInHistory_eq, filter_eq_nil_iff] at hnone
    refine hnone message ?_ (by simpa using source_of_mem_userMessages hmem)
    rw [hhistory]
    exact mem_filter.mpr ⟨mem_append_right _ hmessage, by simpa using hstays⟩
  · -- a message of a turn that stays is in the history
    intro message hmessage
    obtain ⟨turn, hturn, hmem⟩ := mem_messagesOf.mp hmessage
    have hsurvives : Survives reading (entries ++ [.rolledBack numTurns]) turn.2 := by
      rw [survives_iff hspoken, hstanding]
      exact ⟨turn.1, hturn⟩
    have hkept := hsync.kept turn.2 turn.1 (hentries turn hturn) hsurvives
    rw [← hkept, messagesInHistory_eq, hhistory] at hmem
    simpa using (mem_filter.mp (mem_of_mem_filter hmem)).2

theorem rollbacksAligned_of_inSync (hspoken : EveryTurnSpoken reading entries)
    (hsync : ∀ before, before <+: entries → InSync reading before) :
    RollbacksAligned reading entries := by
  induction entries using List.reverseRecOn with
  | nil =>
    intro before numTurns hmarker
    simp at hmarker
  | append_singleton entries entry ih =>
    have hbefore : entries <+: entries ++ [entry] := prefix_append _ _
    have haligned := ih (hspoken.of_prefix hbefore) fun before hinitial =>
      hsync before (hinitial.trans hbefore)
    intro before numTurns hmarker
    rcases prefix_concat_iff.mp hmarker with hlast | hearlier
    · obtain ⟨rfl, hentry⟩ := append_inj' hlast rfl
      obtain rfl := singleton_inj.mp hentry
      exact aligned_of_inSync hspoken
        (historyMessages_of_aligned (hspoken.of_prefix hbefore) haligned)
        (hsync _ prefix_rfl)
    · exact haligned before numTurns hearlier

/-- History and metadata are in sync all along a rollout exactly if each of its rollback markers
takes off whole turns. -/
theorem reconstruct_inSync_iff (hspoken : EveryTurnSpoken reading entries) :
    (∀ before, before <+: entries → InSync reading before) ↔ RollbacksAligned reading entries := by
  constructor
  · exact rollbacksAligned_of_inSync hspoken
  · intro haligned before hbefore
    have hspokenBefore := hspoken.of_prefix hbefore
    have hmessages := historyMessages_of_aligned hspokenBefore fun start numTurns hmarker =>
      haligned start numTurns (hmarker.trans hbefore)
    exact inSync_of_historyMessages hspokenBefore hmessages

end Reconstruct

/-- Every message is one of the user, and nothing else is said about it. -/
def userOnly : Reading Unit where
  role _ := userRole
  kind _ := .sent
  harnessAuthoredConfiguration _ := false
  acceptanceOrder _ := none
  turnId _ := none
  isContextualUserFragment _ := false
  isContextualDevFragment _ := false
  isSummaryMessage _ := false
  isInterAgentInstructionContent _ := false
  isRebuiltText _ := false
  truncateOutput _ output := output

def userInput (text : String) : TurnItem Unit ℕ :=
  .responseItem (.new (.message [.inputText text.toList] none ()))

/-- A turn to which the user adds a second message. -/
def steeredTurn : Turn Unit ℕ where
  id := "a".toList
  items := [.turnContext true 1 1, userInput "build", userInput "and test"]

def simpleTurn : Turn Unit ℕ where
  id := "b".toList
  items := [.turnContext true 2 2, userInput "commit"]

/-- The rollback takes the second message of the turn off, and the whole segment. -/
theorem steered_turn_out_of_sync :
    EveryTurnSpoken userOnly [.turn steeredTurn, .rolledBack 1] ∧
      ¬InSync userOnly [.turn steeredTurn, .rolledBack 1] := by
  refine ⟨?_, ?_⟩
  · intro number turn hturn
    match number, hturn with
    | 0, rfl => exact cons_ne_nil _ _
    | 1, hturn => cases hturn
    | number + 2, hturn => cases hturn
  · intro hsync
    have hnone := hsync.dropped 0 (by rintro ⟨segment, hsegment, -⟩; cases hsegment)
    cases hnone

theorem simple_turn_rolled_back :
    EveryTurnSpoken userOnly [.turn steeredTurn, .turn simpleTurn, .rolledBack 1] ∧
      InSync userOnly [.turn steeredTurn, .turn simpleTurn, .rolledBack 1] := by
  have hspoken : EveryTurnSpoken userOnly [.turn steeredTurn, .turn simpleTurn, .rolledBack 1] := by
    intro number turn hturn
    match number, hturn with
    | 0, rfl => exact cons_ne_nil _ _
    | 1, rfl => exact cons_ne_nil _ _
    | 2, hturn => cases hturn
    | number + 3, hturn => cases hturn
  have haligned :
      RollbacksAligned userOnly [.turn steeredTurn, .turn simpleTurn, .rolledBack 1] := by
    rintro before numTurns ⟨after, hentries⟩
    match before, hentries with
    | [], hentries => cases hentries
    | [_], hentries => cases hentries
    | [first, second], hentries =>
      obtain ⟨rfl, rfl, rfl, -⟩ := hentries
      exact ⟨by decide, by decide⟩
    | _ :: _ :: _ :: before, hentries => simp at hentries
  exact ⟨hspoken, (reconstruct_inSync_iff hspoken).mpr haligned _ prefix_rfl⟩

end Codex.History
