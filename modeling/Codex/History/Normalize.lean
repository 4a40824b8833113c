import Codex.History.ResponseItem
import Codex.Lib.Positions

/-!
# Normalising the history

Before a conversation is sent, every call gets an output and every output without a call is
taken out: missing outputs are noted with the positions of their calls and inserted from the
last one to the first, orphans are noted by position and left out, and last the media are
replaced that the model does not take.

Calls and outputs belong together by kind and id (`callKey`, `outputKey`); a local shell call
is answered by the output of a function call.  Neither pass changes the calls, so the ids that
the second one collects are those of the given history.

`normalizeHistory_normal` has the parts: the passes as one (`normalizeHistory_eq`), every call is
answered (`answered_normalizeHistory`), no output is an orphan (`not_orphan_normalizeHistory`),
and a second time changes nothing (`normalizeHistory_normalizeHistory`).
-/

namespace Codex.History

open Text Positions ResponseItem List

variable {ρ : Type*}

/-! ## Kinds and ids -/

inductive CallKind where
  | function
  | toolSearch
  | customTool
  deriving DecidableEq, Repr

namespace ResponseItem

/-- The output that the item asks for. -/
def callKey : ResponseItem ρ → Option (CallKind × Str)
  | functionCall _ callId _ => some (.function, callId)
  | localShellCall _ callId _ => callId.map fun id => (.function, id)
  | toolSearchCall _ callId _ => callId.map fun id => (.toolSearch, id)
  | customToolCall _ callId _ => some (.customTool, callId)
  | _ => none

/-- The call that the item answers. -/
def outputKey : ResponseItem ρ → Option (CallKind × Str)
  | functionCallOutput _ callId _ _ _ _ => callId.map fun id => (.function, id)
  | toolSearchOutput _ callId _ _ _ _ => callId.map fun id => (.toolSearch, id)
  | customToolCallOutput _ callId _ _ _ => some (.customTool, callId)
  | _ => none

theorem callKey_eq_none {item : ResponseItem ρ} {key : CallKind × Str}
    (h : item.outputKey = some key) : item.callKey = none := by
  cases item <;> first | rfl | cases h

/-- A search that the server ran needs no call. -/
def isServerOutput : ResponseItem ρ → Bool
  | toolSearchOutput _ _ _ execution _ _ => execution = "server".toList
  | _ => false

end ResponseItem

/-! ## Missing outputs -/

section Passes

variable (uuidV5 : Str → Str) (items : List (ResponseItemEnvelope ρ))

def functionOutputIds : List Str :=
  items.filterMap fun envelope => match envelope.item with
    | .functionCallOutput _ callId _ _ _ _ => callId
    | _ => none

def toolSearchOutputIds : List Str :=
  items.filterMap fun envelope => match envelope.item with
    | .toolSearchOutput _ callId _ _ _ _ => callId
    | _ => none

def customToolOutputIds : List Str :=
  items.filterMap fun envelope => match envelope.item with
    | .customToolCallOutput _ callId _ _ _ => some callId
    | _ => none

/-- An id made from the call's, which stays the same whenever the history is normalised. -/
def syntheticOutputId (tag : Str) (itemId : Option Str) : Option Str :=
  (itemId.filter (· ≠ [])).map fun sourceId =>
    tag ++ '_' :: uuidV5 (tag ++ ':' :: sourceId)

def abortedFunctionOutput (id : Option Str) (callId : Str) : ResponseItemEnvelope ρ :=
  .new (.functionCallOutput (syntheticOutputId uuidV5 "fco".toList id) (some callId) none none
    (.fromText "aborted".toList) none)

variable (functionIds toolSearchIds customToolIds : List Str) (envelope : ResponseItemEnvelope ρ)

/-- The output that the call of this envelope lacks. -/
def missingOutput : Option (ResponseItemEnvelope ρ) :=
  match envelope.item with
  | .functionCall id callId _ =>
    if callId ∈ functionIds then none else some (abortedFunctionOutput uuidV5 id callId)
  | .toolSearchCall id (some callId) _ =>
    if callId ∈ toolSearchIds then none
    else some (.new (.toolSearchOutput (syntheticOutputId uuidV5 "tso".toList id) (some callId)
      "completed".toList "client".toList [] none))
  | .customToolCall id callId _ =>
    if callId ∈ customToolIds then none
    else some (.new (.customToolCallOutput (syntheticOutputId uuidV5 "ctco".toList id) callId none
      (.fromText "aborted".toList) none))
  | .localShellCall id (some callId) _ =>
    if callId ∈ functionIds then none else some (abortedFunctionOutput uuidV5 id callId)
  | _ => none

def missingOutputIn : ResponseItemEnvelope ρ → Option (ResponseItemEnvelope ρ) :=
  missingOutput uuidV5 (functionOutputIds items) (toolSearchOutputIds items)
    (customToolOutputIds items)

def ensureCallOutputsPresent : List (ResponseItemEnvelope ρ) :=
  insertBehind items (noted (missingOutputIn uuidV5 items) items 0)

/-! ## Orphans -/

def functionCallIds : List Str :=
  items.filterMap fun envelope => match envelope.item with
    | .functionCall _ callId _ => some callId
    | .localShellCall _ callId _ => callId
    | _ => none

def toolSearchCallIds : List Str :=
  items.filterMap fun envelope => match envelope.item with
    | .toolSearchCall _ callId _ => callId
    | _ => none

def customToolCallIds : List Str :=
  items.filterMap fun envelope => match envelope.item with
    | .customToolCall _ callId _ => some callId
    | _ => none

def isOrphan : Bool :=
  match envelope.item with
  | .functionCallOutput _ (some callId) _ _ _ _ => callId ∉ functionIds
  | .customToolCallOutput _ callId _ _ _ => callId ∉ customToolIds
  | .toolSearchOutput _ (some callId) _ execution _ _ =>
    execution ≠ "server".toList && callId ∉ toolSearchIds
  | _ => false

def isOrphanIn : ResponseItemEnvelope ρ → Bool :=
  isOrphan (functionCallIds items) (toolSearchCallIds items) (customToolCallIds items)

/-- Note of an orphan. -/
def noteOrphan (envelope : ResponseItemEnvelope ρ) : Option Unit :=
  if isOrphanIn items envelope then some () else none

def removeOrphanOutputs : List (ResponseItemEnvelope ρ) :=
  let orphanPositions := (noted (noteOrphan items) items 0).map Prod.fst
  if orphanPositions = [] then items else leaveOut orphanPositions 0 items

def normalizeHistory [Inhabited ρ] (uuidV5 : Str → Str) (inputModalities : List InputModality)
    (items : List (ResponseItemEnvelope ρ)) : List (ResponseItemEnvelope ρ) :=
  let items := ensureCallOutputsPresent uuidV5 items
  let items := removeOrphanOutputs items
  let items := stripImagesWhenUnsupported inputModalities items
  stripAudioWhenUnsupported inputModalities items

/-! ## What the collected ids say -/

/-- An output of the kind with the id is there. -/
def Answered (key : CallKind × Str) : Prop :=
  ∃ envelope ∈ items, envelope.item.outputKey = some key

/-- A call that an output of the kind with the id belongs to is there. -/
def Called (key : CallKind × Str) : Prop :=
  ∃ envelope ∈ items, envelope.item.callKey = some key

/-- An output that needs a call and has none. -/
def Orphan (envelope : ResponseItemEnvelope ρ) : Prop :=
  ∃ key, envelope.item.outputKey = some key ∧ envelope.item.isServerOutput = false ∧
    ¬ Called items key

end Passes

section Ids

variable {items : List (ResponseItemEnvelope ρ)} {id : Str}

/-- The ids that are collected of one kind are those of the keys of that kind. -/
theorem mem_ids_iff {kind : CallKind} {collect : ResponseItemEnvelope ρ → Option Str}
    {key : ResponseItem ρ → Option (CallKind × Str)}
    (h : ∀ item metadata, collect ⟨item, metadata⟩ = some id ↔ key item = some (kind, id)) :
    id ∈ items.filterMap collect ↔ ∃ envelope ∈ items, key envelope.item = some (kind, id) := by
  rw [mem_filterMap]
  exact exists_congr fun envelope => and_congr_right fun _ => h envelope.item envelope.metadata

theorem mem_functionOutputIds_iff : id ∈ functionOutputIds items ↔ Answered items (.function, id) :=
  mem_ids_iff fun item _ => by cases item <;> simp [outputKey]

theorem mem_toolSearchOutputIds_iff : id ∈ toolSearchOutputIds items ↔ Answered items (.toolSearch, id) :=
  mem_ids_iff fun item _ => by cases item <;> simp [outputKey]

theorem mem_customToolOutputIds_iff : id ∈ customToolOutputIds items ↔ Answered items (.customTool, id) :=
  mem_ids_iff fun item _ => by cases item <;> simp [outputKey]

theorem mem_functionCallIds_iff : id ∈ functionCallIds items ↔ Called items (.function, id) :=
  mem_ids_iff fun item _ => by cases item <;> simp [callKey]

theorem mem_toolSearchCallIds_iff : id ∈ toolSearchCallIds items ↔ Called items (.toolSearch, id) :=
  mem_ids_iff fun item _ => by cases item <;> simp [callKey]

theorem mem_customToolCallIds_iff : id ∈ customToolCallIds items ↔ Called items (.customTool, id) :=
  mem_ids_iff fun item _ => by cases item <;> simp [callKey]

variable {envelope : ResponseItemEnvelope ρ}

theorem isOrphanIn_iff : isOrphanIn items envelope = true ↔ Orphan items envelope := by
  obtain ⟨item, metadata⟩ := envelope
  unfold isOrphanIn isOrphan Orphan
  cases item with
  | functionCallOutput id callId =>
    cases callId <;> simp [outputKey, isServerOutput, mem_functionCallIds_iff]
  | customToolCallOutput =>
    simp [outputKey, isServerOutput, mem_customToolCallIds_iff]
  | toolSearchOutput id callId status execution =>
    simp only [outputKey, isServerOutput]
    cases callId <;> simp [mem_toolSearchCallIds_iff]
  | _ => simp [outputKey]

instance : DecidablePred (Orphan items) := fun _ => decidable_of_iff _ isOrphanIn_iff

end Ids

/-! ## The passes, item by item -/

theorem ensureCallOutputsPresent_eq (uuidV5 : Str → Str) (items : List (ResponseItemEnvelope ρ)) :
    ensureCallOutputsPresent uuidV5 items = items.flatMap fun envelope =>
        envelope :: (missingOutputIn uuidV5 items envelope).toList :=
  insertBehind_noted _ items

theorem removeOrphanOutputs_eq (items : List (ResponseItemEnvelope ρ)) :
    removeOrphanOutputs items = items.filter fun envelope => ¬ Orphan items envelope := by
  have hleave : leaveOut ((noted (noteOrphan items) items 0).map Prod.fst) 0 items =
      items.filter fun envelope => ¬ Orphan items envelope := by
    rw [leaveOut_noted]
    refine filter_congr fun envelope _ => ?_
    rw [Bool.eq_iff_iff, decide_eq_true_eq, ← isOrphanIn_iff, noteOrphan]
    split_ifs with horphan <;> simp [horphan]
  rw [← hleave]
  dsimp only [removeOrphanOutputs]
  split_ifs with hnone
  · rw [hnone, leaveOut_nil]
  · rfl

section Passes

variable [Inhabited ρ] {uuidV5 : Str → Str} {items : List (ResponseItemEnvelope ρ)}
  {envelope output : ResponseItemEnvelope ρ} {key : CallKind × Str}

/-- An output made up for a call: it has the call's kind and id, and no media. -/
structure Answers (key : CallKind × Str) (output : ResponseItemEnvelope ρ) : Prop where
  outputKey_eq : output.item.outputKey = some key
  callKey_eq : output.item.callKey = none
  stripped : ∀ modalities, stripUnsupported modalities output.item = output.item

theorem answers_abortedFunctionOutput (id : Option Str) (callId : Str) :
    Answers (ρ := ρ) (.function, callId) (abortedFunctionOutput uuidV5 id callId) := by
  refine ⟨rfl, rfl, fun modalities => ?_⟩
  unfold stripUnsupported
  split_ifs <;> rfl

/-- A call has an output or gets one, and nothing else does. -/
theorem missingOutputIn_cases (uuidV5 : Str → Str) (items : List (ResponseItemEnvelope ρ))
    (envelope : ResponseItemEnvelope ρ) :
    (envelope.item.callKey = none ∧ missingOutputIn uuidV5 items envelope = none) ∨
    ∃ key, envelope.item.callKey = some key ∧
      ((Answered items key ∧ missingOutputIn uuidV5 items envelope = none) ∨
        (¬ Answered items key ∧
          ∃ output, missingOutputIn uuidV5 items envelope = some output ∧ Answers key output)) := by
  have hlookup : ∀ {ids : List Str} {id : Str} {key : CallKind × Str}
      {output : ResponseItemEnvelope ρ}, (id ∈ ids ↔ Answered items key) → Answers key output →
      (Answered items key ∧ (if id ∈ ids then none else some output) = none) ∨
        (¬ Answered items key ∧
          ∃ found, (if id ∈ ids then none else some output) = some found ∧ Answers key found) := by
    intro ids id key output hids houtput
    by_cases hmem : id ∈ ids
    · exact .inl ⟨hids.mp hmem, if_pos hmem⟩
    · exact .inr ⟨fun h => hmem (hids.mpr h), output, if_neg hmem, houtput⟩
  obtain ⟨item, metadata⟩ := envelope
  cases item with
  | functionCall id callId rest =>
    exact .inr ⟨_, rfl, hlookup mem_functionOutputIds_iff (answers_abortedFunctionOutput id callId)⟩
  | localShellCall id callId rest =>
    cases callId with
    | none => exact .inl ⟨rfl, rfl⟩
    | some callId =>
      exact .inr ⟨_, rfl,
        hlookup mem_functionOutputIds_iff (answers_abortedFunctionOutput id callId)⟩
  | toolSearchCall id callId rest =>
    cases callId with
    | none => exact .inl ⟨rfl, rfl⟩
    | some callId =>
      refine .inr ⟨_, rfl, hlookup mem_toolSearchOutputIds_iff ⟨rfl, rfl, fun _ => ?_⟩⟩
      unfold stripUnsupported
      split_ifs <;> rfl
  | customToolCall id callId rest =>
    refine .inr ⟨_, rfl, hlookup mem_customToolOutputIds_iff ⟨rfl, rfl, fun _ => ?_⟩⟩
    unfold stripUnsupported
    split_ifs <;> rfl
  | _ => exact .inl ⟨rfl, rfl⟩

theorem answers_of_missingOutputIn (h : missingOutputIn uuidV5 items envelope = some output) :
    ∃ key, envelope.item.callKey = some key ∧ ¬ Answered items key ∧ Answers key output := by
  obtain ⟨-, hnone⟩ | ⟨key, hkey, ⟨-, hnone⟩ | ⟨hnot, found, hfound, hanswers⟩⟩ :=
    missingOutputIn_cases uuidV5 items envelope
  · simp [hnone] at h
  · simp [hnone] at h
  · cases hfound.symm.trans h
    exact ⟨key, hkey, hnot, hanswers⟩

/-- The outputs that are put in are no calls. -/
theorem called_ensureCallOutputsPresent_iff :
    Called (ensureCallOutputsPresent uuidV5 items) key ↔ Called items key := by
  simp only [Called, ensureCallOutputsPresent_eq, mem_flatMap, mem_cons, Option.mem_toList]
  constructor
  · rintro ⟨envelope, ⟨origin, horigin, rfl | hmissing⟩, hkey⟩
    · exact ⟨envelope, horigin, hkey⟩
    · obtain ⟨_, -, -, hanswers⟩ := answers_of_missingOutputIn hmissing
      simp [hanswers.callKey_eq] at hkey
  · rintro ⟨envelope, hmem, hkey⟩
    exact ⟨envelope, ⟨envelope, hmem, .inl rfl⟩, hkey⟩

/-- An output asks for none. -/
theorem missingOutputIn_of_outputKey (h : envelope.item.outputKey = some key) :
    missingOutputIn uuidV5 items envelope = none := by
  cases hmissing : missingOutputIn uuidV5 items envelope with
  | none => rfl
  | some output =>
    obtain ⟨_, hcall, -⟩ := answers_of_missingOutputIn hmissing
    simp [callKey_eq_none h] at hcall

/-- What was put in has its call, so that only given outputs are taken out. -/
theorem removeOrphanOutputs_ensureCallOutputsPresent (uuidV5 : Str → Str)
    (items : List (ResponseItemEnvelope ρ)) :
    removeOrphanOutputs (ensureCallOutputsPresent uuidV5 items) =
      (items.filter fun envelope => ¬ Orphan items envelope).flatMap fun envelope =>
        envelope :: (missingOutputIn uuidV5 items envelope).toList := by
  have horphans : removeOrphanOutputs (ensureCallOutputsPresent uuidV5 items) =
      (ensureCallOutputsPresent uuidV5 items).filter fun envelope => ¬ Orphan items envelope := by
    rw [removeOrphanOutputs_eq]
    refine filter_congr fun envelope _ => ?_
    rw [decide_eq_decide]
    simp only [Orphan, called_ensureCallOutputsPresent_iff]
  have hkept : ∀ envelope ∈ items, ¬ Orphan items envelope →
      (envelope :: (missingOutputIn uuidV5 items envelope).toList).filter
          (fun e => ¬ Orphan items e) =
        envelope :: (missingOutputIn uuidV5 items envelope).toList := by
    intro envelope hmem hnot
    refine filter_eq_self.mpr fun e he => decide_eq_true ?_
    rcases mem_cons.mp he with rfl | hmissing
    · exact hnot
    · obtain ⟨key, hkey, -, hanswers⟩ := answers_of_missingOutputIn (Option.mem_toList.mp hmissing)
      rintro ⟨key', hkey', -, hcalled⟩
      cases hanswers.outputKey_eq.symm.trans hkey'
      exact hcalled ⟨envelope, hmem, hkey⟩
  have hdropped : ∀ envelope ∈ items, decide (¬ Orphan items envelope) = false →
      (envelope :: (missingOutputIn uuidV5 items envelope).toList).filter
        (fun e => ¬ Orphan items e) = [] := by
    intro envelope _ hfalse
    have horphan : Orphan items envelope := by simpa using hfalse
    obtain ⟨key, hkey, -⟩ := id horphan
    simp [missingOutputIn_of_outputKey hkey, horphan]
  rw [horphans, ensureCallOutputsPresent_eq, List.filter_flatMap, ← flatMap_filter_of_nil hdropped]
  refine flatMap_congr fun envelope hmem => ?_
  obtain ⟨hmem, hnot⟩ := mem_filter.mp hmem
  exact hkept envelope hmem (of_decide_eq_true hnot)

/-- The envelope with the item's media replaced. -/
def stripEnvelope (modalities : List InputModality) (envelope : ResponseItemEnvelope ρ) :
    ResponseItemEnvelope ρ :=
  { envelope with item := stripUnsupported modalities envelope.item }

/-- All passes at once: orphans are gone, each call is followed by the output that was missing. -/
theorem normalizeHistory_eq (uuidV5 : Str → Str) (modalities : List InputModality)
    (items : List (ResponseItemEnvelope ρ)) :
    normalizeHistory uuidV5 modalities items =
      (items.filter fun envelope => ¬ Orphan items envelope).flatMap fun envelope =>
        stripEnvelope modalities envelope :: (missingOutputIn uuidV5 items envelope).toList := by
  unfold normalizeHistory
  rw [strip_items, removeOrphanOutputs_ensureCallOutputsPresent, map_flatMap]
  refine flatMap_congr fun envelope _ => ?_
  cases hmissing : missingOutputIn uuidV5 items envelope with
  | none => rfl
  | some output =>
    obtain ⟨_, -, -, hanswers⟩ := answers_of_missingOutputIn hmissing
    simp [stripEnvelope, hanswers.stripped]

/-! ## The normalised history -/

variable {modalities : List InputModality}

theorem keys_stripEnvelope (modalities : List InputModality) (envelope : ResponseItemEnvelope ρ) :
    (stripEnvelope modalities envelope).item.callKey = envelope.item.callKey ∧
      (stripEnvelope modalities envelope).item.outputKey = envelope.item.outputKey ∧
      (stripEnvelope modalities envelope).item.isServerOutput = envelope.item.isServerOutput := by
  obtain ⟨item, metadata⟩ := envelope
  have hkept := itemKept_stripUnsupported modalities item
  dsimp only [stripEnvelope]
  generalize stripUnsupported modalities item = stripped at hkept ⊢
  cases hkept <;> exact ⟨rfl, rfl, rfl⟩

theorem mem_normalizeHistory_iff : envelope ∈ normalizeHistory uuidV5 modalities items ↔
    ∃ given ∈ items, ¬ Orphan items given ∧
      (envelope = stripEnvelope modalities given ∨
        missingOutputIn uuidV5 items given = some envelope) := by
  simp only [normalizeHistory_eq, mem_flatMap, mem_filter, decide_eq_true_eq,
    mem_cons, Option.mem_toList, and_assoc]

/-- Calls and outputs that are there before are there afterwards. -/
theorem called_normalizeHistory (h : Called items key) :
    Called (normalizeHistory uuidV5 modalities items) key := by
  obtain ⟨envelope, hmem, hkey⟩ := h
  have horphan : ¬ Orphan items envelope := by
    rintro ⟨key', hkey', -⟩
    simp [callKey_eq_none hkey'] at hkey
  refine ⟨stripEnvelope modalities envelope,
    mem_normalizeHistory_iff.mpr ⟨envelope, hmem, horphan, .inl rfl⟩, ?_⟩
  rw [(keys_stripEnvelope modalities envelope).1, hkey]

section

variable (henvelope : envelope ∈ normalizeHistory uuidV5 modalities items)
include henvelope

theorem answered_normalizeHistory (hkey : envelope.item.callKey = some key) :
    Answered (normalizeHistory uuidV5 modalities items) key := by
  obtain ⟨given, hgiven, hnot, rfl | hmissing⟩ := mem_normalizeHistory_iff.mp henvelope
  · rw [(keys_stripEnvelope modalities given).1] at hkey
    obtain ⟨hnone, -⟩ | ⟨key', hkey', ⟨⟨output, houtput, hanswer⟩, -⟩ | ⟨-, output, hsome, hanswers⟩⟩ :=
      missingOutputIn_cases uuidV5 items given
    · simp [hnone] at hkey
    · -- the output was there, and stays because of its call
      cases hkey.symm.trans hkey'
      refine ⟨stripEnvelope modalities output,
        mem_normalizeHistory_iff.mpr ⟨output, houtput, ?_, .inl rfl⟩, ?_⟩
      · rintro ⟨other, hother, -, hcalled⟩
        cases hanswer.symm.trans hother
        exact hcalled ⟨given, hgiven, hkey⟩
      · rw [(keys_stripEnvelope modalities output).2.1, hanswer]
    · cases hkey.symm.trans hkey'
      exact ⟨output, mem_normalizeHistory_iff.mpr ⟨given, hgiven, hnot, .inr hsome⟩,
        hanswers.outputKey_eq⟩
  · obtain ⟨_, -, -, hanswers⟩ := answers_of_missingOutputIn hmissing
    simp [hanswers.callKey_eq] at hkey

theorem not_orphan_normalizeHistory :
    ¬ Orphan (normalizeHistory uuidV5 modalities items) envelope := by
  rintro ⟨key, hkey, hserver, hcalled⟩
  apply hcalled
  obtain ⟨given, hgiven, hnot, rfl | hmissing⟩ := mem_normalizeHistory_iff.mp henvelope
  · obtain ⟨-, houtput, hsame⟩ := keys_stripEnvelope modalities given
    rw [houtput] at hkey
    rw [hsame] at hserver
    by_contra hnone
    exact hnot ⟨key, hkey, hserver, fun h => hnone (called_normalizeHistory h)⟩
  · obtain ⟨key', hcall, -, hanswers⟩ := answers_of_missingOutputIn hmissing
    cases hanswers.outputKey_eq.symm.trans hkey
    exact called_normalizeHistory ⟨given, hgiven, hcall⟩

theorem stripEnvelope_of_mem : stripEnvelope modalities envelope = envelope := by
  obtain ⟨given, -, -, rfl | hmissing⟩ := mem_normalizeHistory_iff.mp henvelope
  · simp only [stripEnvelope, stripUnsupported_stripUnsupported]
  · obtain ⟨_, -, -, hanswers⟩ := answers_of_missingOutputIn hmissing
    simp only [stripEnvelope, hanswers.stripped]

end

theorem normalizeHistory_normalizeHistory :
    normalizeHistory uuidV5 modalities (normalizeHistory uuidV5 modalities items) =
      normalizeHistory uuidV5 modalities items := by
  have hitem : ∀ envelope ∈ normalizeHistory uuidV5 modalities items,
      stripEnvelope modalities envelope ::
        (missingOutputIn uuidV5 (normalizeHistory uuidV5 modalities items) envelope).toList =
          [envelope] := by
    intro envelope hmem
    have hnone : missingOutputIn uuidV5 (normalizeHistory uuidV5 modalities items) envelope = none := by
      cases hmissing : missingOutputIn uuidV5 (normalizeHistory uuidV5 modalities items) envelope with
      | none => rfl
      | some output =>
        obtain ⟨key, hkey, hnot, -⟩ := answers_of_missingOutputIn hmissing
        exact absurd (answered_normalizeHistory hmem hkey) hnot
    rw [stripEnvelope_of_mem hmem, hnone]
    rfl
  rw [normalizeHistory_eq uuidV5 modalities (normalizeHistory uuidV5 modalities items),
    filter_eq_self.mpr fun envelope hmem => decide_eq_true (not_orphan_normalizeHistory hmem),
    flatMap_congr hitem, flatMap_singleton']

end Passes

/-- A given item in the normalised history, with the output put behind it. -/
structure Block (ρ : Type*) where
  given : ResponseItemEnvelope ρ
  kept : ResponseItemEnvelope ρ
  synthetic : Option (ResponseItemEnvelope ρ)

def Block.items (block : Block ρ) : List (ResponseItemEnvelope ρ) :=
  block.kept :: block.synthetic.toList

/-- Calls and outputs are paired, the given items are there in their order, orphans apart, an
output that was missing follows its call, and there is nothing left to normalise. -/
theorem normalizeHistory_normal [Inhabited ρ] (uuidV5 : Str → Str)
    (modalities : List InputModality) (items : List (ResponseItemEnvelope ρ)) :
    let result := normalizeHistory uuidV5 modalities items
    (∀ envelope ∈ result, ∀ key, envelope.item.callKey = some key → Answered result key) ∧
    (∀ envelope ∈ result, ∀ key, envelope.item.outputKey = some key →
      envelope.item.isServerOutput = false → Called result key) ∧
    (∃ blocks : List (Block ρ),
      blocks.map Block.given = items.filter (fun envelope => ¬ Orphan items envelope) ∧
      result = blocks.flatMap Block.items ∧
      ∀ block ∈ blocks, ItemKept modalities block.given.item block.kept.item ∧
        block.kept.metadata = block.given.metadata ∧
        ∀ output ∈ block.synthetic, ∃ key, block.kept.item.callKey = some key ∧
          ¬ Answered items key ∧ output.item.outputKey = some key) ∧
    normalizeHistory uuidV5 modalities result = result := by
  refine ⟨fun envelope hmem key => answered_normalizeHistory hmem,
    fun envelope hmem key hkey hserver => ?_, ?_, normalizeHistory_normalizeHistory⟩
  · by_contra hnone
    exact not_orphan_normalizeHistory hmem ⟨key, hkey, hserver, hnone⟩
  · let block (envelope : ResponseItemEnvelope ρ) : Block ρ :=
      ⟨envelope, stripEnvelope modalities envelope, missingOutputIn uuidV5 items envelope⟩
    refine ⟨(items.filter fun envelope => ¬ Orphan items envelope).map block, ?_, ?_, ?_⟩
    · rw [map_map]
      exact map_id _
    · rw [normalizeHistory_eq, flatMap_map]
      rfl
    · intro b hb
      obtain ⟨envelope, -, rfl⟩ := mem_map.mp hb
      refine ⟨itemKept_stripUnsupported modalities envelope.item, rfl, fun output houtput => ?_⟩
      obtain ⟨key, hkey, hnot, hanswers⟩ := answers_of_missingOutputIn houtput
      exact ⟨key, ((keys_stripEnvelope modalities envelope).1).trans hkey, hnot,
        hanswers.outputKey_eq⟩

end Codex.History
