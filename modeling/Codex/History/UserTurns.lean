import Codex.History.ResponseItem
import Codex.Lib.Positions

/-!
# The user turns of a history

What the items of a rollout become in the history, which of them begin a user turn, and how a
rollback takes the last turns off again.  A rollback cuts the history at a message that begins a
turn; on the way it also drops or rewrites items that only told the model about its context, and
what the model had said after the input that is taken back.

What texts and metadata say is given by `Reading`.  Every item carries a label that nothing
reads, so that statements can tell where an item of the history comes from.
-/

namespace Codex.History

open Text List

variable {ρ : Type*}

/-- The items that are neither messages nor calls nor outputs. -/
inductive OtherKind where
  | agentMessage
  | configurationUpdate
  | sent
  | notSent
  deriving DecidableEq

/-- What the texts and the opaque parts of items say. -/
structure Reading (ρ : Type*) where
  /-- The role of a message. -/
  role : ρ → Str
  kind : ρ → OtherKind
  harnessAuthoredConfiguration : ρ → Bool
  /-- `RetainedInputSource::from(metadata).acceptance_order()` -/
  acceptanceOrder : Option ρ → Option ℕ
  turnId : ResponseItem ρ → Option Str
  isContextualUserFragment : ContentItem ρ → Bool
  isContextualDevFragment : ContentItem ρ → Bool
  isSummaryMessage : Str → Bool
  isInterAgentInstructionContent : List (ContentItem ρ) → Bool
  /-- Instructions that are rebuilt from the next step. -/
  isRebuiltText : Str → Bool
  truncateOutput : Option ρ → FunctionCallOutputPayload ρ → FunctionCallOutputPayload ρ

/-- An item with a label for where it comes from. -/
structure Sourced (τ ρ : Type*) where
  source : τ
  envelope : ResponseItemEnvelope ρ

def userRole : Str := "user".toList

def assistantRole : Str := "assistant".toList

def developerRole : Str := "developer".toList

def systemRole : Str := "system".toList

def ContentItem.inputText? : ContentItem ρ → Option Str
  | .inputText text => some text
  | _ => none

variable (reading : Reading ρ)

/-! ## Recording -/

def isApiMessage (metadata : Option ρ) : ResponseItem ρ → Bool
  | .message _ _ rest => reading.role rest ≠ systemRole
  | .other rest =>
    match reading.kind rest with
    | .agentMessage => true
    | .configurationUpdate => metadata.any reading.harnessAuthoredConfiguration
    | .sent => true
    | .notSent => false
  | _ => true

/-- The item with its output cut to what the history may hold. -/
def truncatedItem (metadata : Option ρ) : ResponseItem ρ → ResponseItem ρ
  | .functionCallOutput id callId name nameSpace output passthrough =>
    .functionCallOutput id callId name nameSpace (reading.truncateOutput metadata output) passthrough
  | .customToolCallOutput id callId name output passthrough =>
    .customToolCallOutput id callId name (reading.truncateOutput metadata output) passthrough
  | item => item

variable {τ : Type*}

def recordItem (history : List (Sourced τ ρ)) (item : Sourced τ ρ) : List (Sourced τ ρ) :=
  if isApiMessage reading item.envelope.metadata item.envelope.item then
    history ++ [{ item with envelope := { item.envelope with
      item := truncatedItem reading item.envelope.metadata item.envelope.item } }]
  else history

/-! ## Boundaries -/

def isContextualUserMessageContent (content : List (ContentItem ρ)) : Bool :=
  content.any reading.isContextualUserFragment

def isUserTurnBoundary : ResponseItem ρ → Bool
  | .other rest => reading.kind rest = .agentMessage
  | .message content _ rest =>
    (reading.role rest = userRole && !isContextualUserMessageContent reading content &&
      !content.any fun part => part.inputText?.any reading.isSummaryMessage) ||
    (reading.role rest = assistantRole && reading.isInterAgentInstructionContent content)
  | _ => false

def Sourced.isBoundary (item : Sourced τ ρ) : Bool := isUserTurnBoundary reading item.envelope.item

open Sourced

def userMessagePositions (items : List (Sourced τ ρ)) : List ℕ :=
  items.findIdxs (isBoundary reading)

/-! ## Rollback -/

/-- A message that told the model about its context only. -/
def isContextUpdate : ResponseItem ρ → Bool
  | .message content _ rest =>
    (reading.role rest = developerRole && content.any reading.isContextualDevFragment) ||
    (reading.role rest = userRole && isContextualUserMessageContent reading content)
  | _ => false

/-- The cut, moved up over the context updates right above it. -/
def trimPreTurnContextUpdates (items : List (Sourced τ ρ)) (firstInstructionTurnIdx : ℕ) : ℕ → ℕ
  | 0 => 0
  | cut + 1 =>
    if firstInstructionTurnIdx < cut + 1 ∧
        items[cut]?.any fun item => isContextUpdate reading item.envelope.item then
      trimPreTurnContextUpdates items firstInstructionTurnIdx cut
    else cut + 1

/-- Said by the model after the input of that order was accepted. -/
def isAcceptedLater (boundary : Option ℕ) (item : Sourced τ ρ) : Bool :=
  (match item.envelope.item with
    | .message _ _ rest => reading.role rest = assistantRole
    | .functionCall .. => true
    | _ => false) &&
  match boundary, reading.acceptanceOrder item.envelope.metadata with
  | some boundary, some order => boundary ≤ order
  | _, _ => false

/-- A developer message of the first turn, without what is rebuilt from the next step; nothing if
nothing is left of it. -/
def withoutRebuiltTexts [Inhabited ρ] (firstTurnId : Str) (item : Sourced τ ρ) :
    Option (Sourced τ ρ) :=
  match item.envelope.item with
  | .message content metadata rest =>
    if reading.turnId item.envelope.item = some firstTurnId ∧ reading.role rest = developerRole then
      let kept := (toAnnotatedContent content metadata).filter fun part =>
        !part.content.inputText?.any reading.isRebuiltText
      if kept.isEmpty then none
      else some { item with envelope := { item.envelope with
        item := setAnnotatedContent kept metadata rest } }
    else some item
  | _ => some item

/-- Cuts before the turns to drop, and leaves out what was accepted later than the first of them. -/
def dropLastNUserTurns [Inhabited ρ] (numTurns : ℕ) (items : List (Sourced τ ρ)) :
    List (Sourced τ ρ) :=
  if numTurns = 0 then items
  else
    let positions := userMessagePositions reading items
    match positions.head? with
    | none => items
    | some first =>
      let boundary := if numTurns ≥ positions.length then first
        else positions.getD (positions.length - numTurns) 0
      let order := items[boundary]?.bind fun item => reading.acceptanceOrder item.envelope.metadata
      let cut := trimPreTurnContextUpdates reading items first boundary
      let retained := (items.take cut).filter fun item => !isAcceptedLater reading order item
      match items[first]?.bind fun item => reading.turnId item.envelope.item with
      | some firstTurnId =>
        if cut = first then retained.filterMap (withoutRebuiltTexts reading firstTurnId)
        else retained
      | none => retained

/-! ## What a rollback leaves of the boundaries -/

section Boundaries

variable {reading} {items : List (Sourced τ ρ)}

theorem not_isBoundary_of_developer {item : Sourced τ ρ} {content : List (ContentItem ρ)}
    {metadata : Passthrough ρ} {rest : ρ} (hitem : item.envelope.item = .message content metadata rest)
    (hrole : reading.role rest = developerRole) : item.isBoundary reading = false := by
  have huser : developerRole ≠ userRole := by decide
  have hassistant : developerRole ≠ assistantRole := by decide
  simp [isBoundary, isUserTurnBoundary, hitem, hrole, huser, hassistant]

/-- A context update begins no turn. -/
theorem not_isBoundary_of_isContextUpdate {item : Sourced τ ρ}
    (h : isContextUpdate reading item.envelope.item = true) : item.isBoundary reading = false := by
  cases hitem : item.envelope.item with
  | message content metadata rest =>
    simp only [hitem, isContextUpdate, Bool.or_eq_true, Bool.and_eq_true, decide_eq_true_eq] at h
    rcases h with ⟨hrole, -⟩ | ⟨hrole, hcontextual⟩
    · exact not_isBoundary_of_developer hitem hrole
    · have hassistant : userRole ≠ assistantRole := by decide
      simp [isBoundary, isUserTurnBoundary, hitem, hrole, hcontextual, hassistant]
  | _ => simp [hitem, isContextUpdate] at h

theorem filter_take_trim (first cut : ℕ) :
    (items.take (trimPreTurnContextUpdates reading items first cut)).filter (isBoundary reading) =
      (items.take cut).filter (isBoundary reading) := by
  induction cut with
  | zero => rfl
  | succ cut ih =>
    unfold trimPreTurnContextUpdates
    split_ifs with htrim
    · rw [ih, take_add_one]
      cases hitem : items[cut]? with
      | none => simp
      | some item =>
        have hboundary : item.isBoundary reading = false :=
          not_isBoundary_of_isContextUpdate (by simpa [hitem] using htrim.2)
        simp [hboundary]
    · rfl

/-- Recorded, an item that begins a turn is still the same, and no other begins one. -/
theorem filter_recordItem (history : List (Sourced τ ρ)) (item : Sourced τ ρ) :
    (recordItem reading history item).filter (isBoundary reading) =
      history.filter (isBoundary reading) ++ [item].filter (isBoundary reading) := by
  obtain ⟨source, item, metadata⟩ := item
  unfold recordItem
  cases item with
  | message content passthrough rest =>
    have hsystem : userRole ≠ systemRole ∧ assistantRole ≠ systemRole := by decide
    by_cases hrole : reading.role rest = systemRole
    · simp [isApiMessage, hrole, isBoundary, isUserTurnBoundary, hsystem.1.symm, hsystem.2.symm]
    · simp [isApiMessage, hrole, truncatedItem]
  | other rest =>
    cases hkind : reading.kind rest with
    | agentMessage | sent => simp [isApiMessage, hkind, truncatedItem]
    | configurationUpdate =>
      cases hharness : metadata.any reading.harnessAuthoredConfiguration with
      | true =>
        simp [isApiMessage, hkind, hharness, truncatedItem]
      | false => simp [isApiMessage, hkind, hharness, isBoundary, isUserTurnBoundary]
    | notSent => simp [isApiMessage, hkind, isBoundary, isUserTurnBoundary]
  | _ => simp [isApiMessage, truncatedItem, isBoundary, isUserTurnBoundary]

variable [Inhabited ρ]

theorem withoutRebuiltTexts_of_isBoundary {item : Sourced τ ρ} (h : item.isBoundary reading = true)
    (firstTurnId : Str) : withoutRebuiltTexts reading firstTurnId item = some item := by
  unfold withoutRebuiltTexts
  split
  · next content metadata rest hitem =>
      rw [if_neg]
      rintro ⟨-, hrole⟩
      rw [not_isBoundary_of_developer hitem hrole] at h
      cases h
  · rfl

theorem isBoundary_of_withoutRebuiltTexts {item kept : Sourced τ ρ} {firstTurnId : Str}
    (h : withoutRebuiltTexts reading firstTurnId item = some kept) :
    kept.isBoundary reading = item.isBoundary reading := by
  unfold withoutRebuiltTexts at h
  split at h
  · next content metadata rest hitem =>
      dsimp only at h
      split_ifs at h with hrole hempty
      · cases h
        rw [not_isBoundary_of_developer hitem hrole.2]
        exact not_isBoundary_of_developer rfl hrole.2
      · cases h
        rfl
  · cases h
    rfl

theorem filter_filterMap_withoutRebuiltTexts (items : List (Sourced τ ρ)) (firstTurnId : Str) :
    (items.filterMap (withoutRebuiltTexts reading firstTurnId)).filter (isBoundary reading) =
      items.filter (isBoundary reading) := by
  induction items with
  | nil => rfl
  | cons item items ih =>
    cases hboundary : item.isBoundary reading with
    | true =>
      rw [filterMap_cons_some (withoutRebuiltTexts_of_isBoundary hboundary firstTurnId),
        filter_cons_of_pos hboundary, filter_cons_of_pos hboundary, ih]
    | false =>
      rw [filter_cons_of_neg (by simp [hboundary])]
      cases hkept : withoutRebuiltTexts reading firstTurnId item with
      | none => rw [filterMap_cons_none hkept, ih]
      | some kept =>
        have hsame := isBoundary_of_withoutRebuiltTexts hkept
        rw [filterMap_cons_some hkept, filter_cons_of_neg (by simp [hsame, hboundary]), ih]

/-- The boundaries without the last ones. -/
def withoutLast {α : Type*} (n : ℕ) (items : List α) : List α := items.take (items.length - n)

/-- The order in which the first of the boundaries that are taken off was accepted. -/
def cutOrder (reading : Reading ρ) (numTurns : ℕ) (boundaries : List (Sourced τ ρ)) : Option ℕ :=
  boundaries[boundaries.length - numTurns]?.bind fun item =>
    reading.acceptanceOrder item.envelope.metadata

/-- A rollback takes the last boundaries off, and those that count as said after the first of
them. -/
theorem filter_dropLastNUserTurns (numTurns : ℕ) (items : List (Sourced τ ρ)) :
    (dropLastNUserTurns reading numTurns items).filter (isBoundary reading) =
      (withoutLast numTurns (items.filter (isBoundary reading))).filter fun item =>
        !isAcceptedLater reading
          (cutOrder reading numTurns (items.filter (isBoundary reading))) item := by
  unfold dropLastNUserTurns
  generalize hboundaries : items.filter (isBoundary reading) = boundaries
  generalize hpositions : userMessagePositions reading items = positions
  have hcount : positions.length = boundaries.length := by
    rw [← hpositions, ← hboundaries, userMessagePositions, length_findIdxs, countP_eq_length_filter]
  split_ifs with hzero
  · simp [hzero, hboundaries, withoutLast, cutOrder, isAcceptedLater]
  dsimp only
  split
  · next hnone =>
      rw [head?_eq_none_iff.mp hnone] at hcount
      simp [hboundaries, withoutLast, length_eq_zero_iff.mp hcount.symm]
  · next first hfirst =>
      -- the boundary at which the cut is made is the first of those that are taken off
      have hplace : positions[boundaries.length - numTurns]? =
          some (if numTurns ≥ positions.length then first
            else positions.getD (positions.length - numTurns) 0) := by
        rw [← hcount]
        split_ifs with hall
        · rw [Nat.sub_eq_zero_of_le hall, ← head?_eq_getElem?, hfirst]
        · have hlt : positions.length - numTurns < positions.length := by omega
          simp [hlt]
      generalize (if numTurns ≥ positions.length then first
        else positions.getD (positions.length - numTurns) 0) = boundary at hplace ⊢
      rw [← hpositions] at hplace
      obtain ⟨htake, hget⟩ := Positions.filter_take_of_findIdxs hplace
      rw [hboundaries] at htake hget
      have horder : (items[boundary]?.bind fun item =>
          reading.acceptanceOrder item.envelope.metadata) = cutOrder reading numTurns boundaries := by
        rw [hget, cutOrder]
      rw [horder]
      have hretained : ∀ kept, ((items.take (trimPreTurnContextUpdates reading items first
          boundary)).filter kept).filter (isBoundary reading) =
            (withoutLast numTurns boundaries).filter kept := by
        intro kept
        rw [filter_comm, filter_take_trim, htake]
        rfl
      split
      · split_ifs
        · rw [filter_filterMap_withoutRebuiltTexts, hretained]
        · exact hretained _
      · exact hretained _

end Boundaries

end Codex.History
