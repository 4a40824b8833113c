import Codex.History.Normalize
import Mathlib.Logic.Function.Iterate

/-!
# Trimming the history

When a conversation is too long its oldest item is removed, together with the one that belongs
to it.  That is looked for by the kind of the item; where every call has one output and every
output one call, it is the only item with the same key, and what is left is paired again.

`removeFirstItem_paired` is the induction over the removals; one removal is
`removeFirstItem_spec`.
-/

namespace Codex.History

open ResponseItem List

variable {ρ : Type*}

namespace ResponseItem

def isFunctionCallOf (id : Str) : ResponseItem ρ → Bool
  | functionCall _ callId _ => callId = id
  | _ => false

def isLocalShellCallOf (id : Str) : ResponseItem ρ → Bool
  | localShellCall _ callId _ => callId = some id
  | _ => false

end ResponseItem

variable {items : List (ResponseItemEnvelope ρ)} {item : ResponseItem ρ} {key : CallKind × Str}

def removeFirstMatching (items : List (ResponseItemEnvelope ρ)) (predicate : ResponseItem ρ → Bool) :
    List (ResponseItemEnvelope ρ) :=
  items.eraseP fun envelope => predicate envelope.item

/-- Removes the call of an output, or the output of a call. -/
def removeCorrespondingFor (items : List (ResponseItemEnvelope ρ)) :
    ResponseItem ρ → List (ResponseItemEnvelope ρ)
  | .functionCall _ id _ => removeFirstMatching items (·.outputKey = some (.function, id))
  | .functionCallOutput _ (some id) _ _ _ _ =>
    if items.any fun envelope => envelope.item.isFunctionCallOf id then
      removeFirstMatching items (isFunctionCallOf id)
    else removeFirstMatching items (isLocalShellCallOf id)
  | .toolSearchCall _ (some id) _ =>
    removeFirstMatching items (·.outputKey = some (.toolSearch, id))
  | .toolSearchOutput _ (some id) _ _ _ _ =>
    removeFirstMatching items (·.callKey = some (.toolSearch, id))
  | .customToolCall _ id _ => removeFirstMatching items (·.outputKey = some (.customTool, id))
  | .customToolCallOutput _ id _ _ _ =>
    removeFirstMatching items (·.callKey = some (.customTool, id))
  | .localShellCall _ (some id) _ => removeFirstMatching items (·.outputKey = some (.function, id))
  | _ => items

def removeFirstItem : List (ResponseItemEnvelope ρ) → List (ResponseItemEnvelope ρ)
  | [] => []
  | removed :: items => removeCorrespondingFor items removed.item

/-! ## Lists with two sides -/

section Sides

variable {α κ : Type*} [DecidableEq κ] {f g : α → Option κ} {p q : α → Bool} {l : List α}

/-- A key that an item has on one side, exactly one has on the other. -/
def OneEach (f g : α → Option κ) (l : List α) : Prop :=
  ∀ key, (0 < l.countP (f · = some key) → l.countP (g · = some key) = 1) ∧
    (0 < l.countP (g · = some key) → l.countP (f · = some key) = 1)

theorem OneEach.symm (h : OneEach f g l) : OneEach g f l := fun key => (h key).symm

theorem OneEach.countP_le {a : α} (h : OneEach f g (a :: l)) (key : κ) :
    l.countP (f · = some key) ≤ 1 := by
  have hkey := h key
  simp only [countP_cons] at hkey
  split_ifs at hkey <;> omega

/-- Without an item and the one with its key on the other side, the list still has one each. -/
theorem OneEach.filter {a : α} {k : κ} (h : OneEach f g (a :: l)) (ha : f a = some k)
    (hside : ∀ a key, f a = some key → g a = none) :
    l.countP (g · = some k) = 1 ∧ OneEach f g (l.filter fun b => !decide (g b = some k)) := by
  simp only [OneEach, countP_cons, ha, hside a k ha] at h
  have hk := h k
  simp only [decide_true, if_true, reduceCtorEq, decide_false, Bool.false_eq_true, if_false] at hk
  refine ⟨by omega, fun key => ?_⟩
  have hf : (l.filter fun b => !decide (g b = some k)).countP (f · = some key) =
      l.countP (f · = some key) := by
    rw [countP_filter]
    refine countP_congr fun b _ => ?_
    have hb := hside b key
    simp +contextual [hb]
  have hg : (l.filter fun b => !decide (g b = some k)).countP (g · = some key) =
      if k = key then 0 else l.countP (g · = some key) := by
    rw [countP_filter]
    split_ifs with heq
    · simp [heq]
    · refine countP_congr fun b _ => ?_
      simp +contextual [Ne.symm heq]
  have hkey := h key
  rw [hf, hg]
  by_cases heq : k = key
  · subst heq
    rw [if_pos rfl]
    omega
  · simpa [heq] using hkey

theorem eraseP_eq_filter (h : l.countP p ≤ 1) : l.eraseP p = l.filter (!p ·) := by
  induction l with
  | nil => rfl
  | cons a l ih =>
    rw [countP_cons] at h
    cases ha : p a with
    | true =>
      have hnone : ∀ b ∈ l, ¬ p b = true := countP_eq_zero.mp (by rw [if_pos ha] at h; omega)
      rw [eraseP_cons_of_pos ha, filter_cons_of_neg (by simp [ha]),
        filter_eq_self.mpr (by simpa using hnone)]
    | false =>
      rw [eraseP_cons_of_neg (by simp [ha]), filter_cons_of_pos (by simp [ha]), ih (by omega)]

/-- Looking for one kind and then for the other finds the only item of either. -/
theorem eraseP_or (h : l.countP (fun a => p a || q a) ≤ 1) :
    (if l.any p then l.eraseP p else l.eraseP q) = l.eraseP fun a => p a || q a := by
  induction l with
  | nil => rfl
  | cons a l ih =>
    rw [countP_cons] at h
    cases hp : p a with
    | true => simp [hp]
    | false =>
      cases hq : q a with
      | true =>
        have hnone : ∀ b ∈ l, ¬ (p b || q b) = true :=
          countP_eq_zero.mp (by rw [if_pos (by simp [hq])] at h; omega)
        have hany : l.any p = false := any_eq_false.mpr fun b hb hpb =>
          hnone b hb (by simp [hpb])
        simp [hp, hq, hany]
      | false =>
        have hrest := ih (by omega)
        split_ifs at hrest <;> simp_all

end Sides

/-! ## The item that belongs to another -/

/-- A call has one output, and an output one call. -/
def Paired (items : List (ResponseItemEnvelope ρ)) : Prop :=
  OneEach (·.item.callKey) (·.item.outputKey) items

/-- The one is a call and the other its output. -/
def ResponseItem.belongsTo (item other : ResponseItem ρ) : Bool :=
  match item.callKey, item.outputKey with
  | some key, _ => other.outputKey = some key
  | none, some key => other.callKey = some key
  | none, none => false

/-- Whatever the kinds, it is the first that belongs to the item. -/
theorem removeCorrespondingFor_eq (hone : ∀ key, items.countP (·.item.callKey = some key) ≤ 1) :
    removeCorrespondingFor items item = removeFirstMatching items item.belongsTo := by
  have hnone : items = items.eraseP fun _ => false :=
    (eraseP_of_forall_not fun _ _ => Bool.false_ne_true).symm
  cases item with
  | functionCallOutput id callId =>
    cases callId with
    | none => exact hnone
    | some callId =>
      -- the call is that of a function or of a shell, and there is only one
      have hkey : ∀ other : ResponseItem ρ, decide (other.callKey = some (.function, callId)) =
          (other.isFunctionCallOf callId || other.isLocalShellCallOf callId) := by
        intro other
        cases other <;> simp [callKey, isFunctionCallOf, isLocalShellCallOf]
      have hcall := hone (.function, callId)
      simp only [hkey] at hcall
      refine (eraseP_or hcall).trans ?_
      simp only [← hkey]
      rfl
  | localShellCall id callId | toolSearchCall id callId | toolSearchOutput id callId =>
    cases callId with
    | none => exact hnone
    | some callId => rfl
  | functionCall | customToolCall | customToolCallOutput => rfl
  | _ => exact hnone

theorem outputKey_eq_none (h : item.callKey = some key) : item.outputKey = none := by
  cases hkey : item.outputKey with
  | none => rfl
  | some other => simp [callKey_eq_none hkey] at h

variable {oldest : ResponseItemEnvelope ρ}

/-- The oldest item goes with the one that belongs to it, and what is left is paired. -/
theorem removeFirstItem_spec (h : Paired (oldest :: items)) :
    removeFirstItem (oldest :: items) =
        items.filter (fun other => !oldest.item.belongsTo other.item) ∧
      items.countP (fun other => oldest.item.belongsTo other.item) =
        (if oldest.item.callKey = none ∧ oldest.item.outputKey = none then 0 else 1) ∧
      Paired (removeFirstItem (oldest :: items)) := by
  have hcalls : ∀ key, items.countP (·.item.callKey = some key) ≤ 1 := fun key => h.countP_le key
  rw [removeFirstItem, removeCorrespondingFor_eq hcalls, removeFirstMatching]
  cases hcall : oldest.item.callKey with
  | some key =>
    obtain ⟨hone, hkept⟩ := h.filter hcall fun _ _ => outputKey_eq_none
    simpa [belongsTo, hcall, outputKey_eq_none hcall, hone, Paired, eraseP_eq_filter] using hkept
  | none =>
    cases houtput : oldest.item.outputKey with
    | some key =>
      obtain ⟨hone, hkept⟩ := h.symm.filter houtput fun _ _ => callKey_eq_none
      simpa [belongsTo, hcall, houtput, hone, Paired, eraseP_eq_filter] using hkept.symm
    | none =>
      simpa [belongsTo, hcall, houtput, eraseP_eq_filter, Paired, OneEach, countP_cons] using h

/-- However often the oldest item is removed from a paired history: it stays paired, and each
time only that item goes and the one that belongs to it, if there is one. -/
theorem removeFirstItem_paired (items : List (ResponseItemEnvelope ρ)) (h : Paired items) (n : ℕ) :
    Paired (removeFirstItem^[n] items) ∧
      ∀ oldest rest, removeFirstItem^[n] items = oldest :: rest →
        removeFirstItem^[n + 1] items =
            rest.filter (fun other => !oldest.item.belongsTo other.item) ∧
          rest.countP (fun other => oldest.item.belongsTo other.item) =
            if oldest.item.callKey = none ∧ oldest.item.outputKey = none then 0 else 1 := by
  have hpaired : Paired (removeFirstItem^[n] items) := by
    induction n with
    | zero => exact h
    | succ n ih =>
      rw [Function.iterate_succ_apply']
      cases hitems : removeFirstItem^[n] items with
      | nil => simp [removeFirstItem, Paired, OneEach]
      | cons oldest rest => exact (removeFirstItem_spec (hitems ▸ ih)).2.2
  refine ⟨hpaired, fun oldest rest hitems => ?_⟩
  rw [Function.iterate_succ_apply', hitems]
  rw [hitems] at hpaired
  obtain ⟨hfilter, hone, -⟩ := removeFirstItem_spec hpaired
  exact ⟨hfilter, hone⟩

/-- A shell call, a message and the output of the call: the message is left. -/
theorem removeFirstItem_paired_shell :
    let message : ResponseItemEnvelope ℕ := .new (.other 0)
    let items := [.new (.localShellCall none (some []) 0), message,
      .new (.functionCallOutput none (some []) none none ⟨.text [], none⟩ none)]
    Paired items ∧ removeFirstItem^[1] items = [message] := by
  intro message items
  have hpaired : Paired items := by
    intro key
    by_cases hkey : key = (.function, [])
    · subst hkey
      decide
    · simp [items, message, callKey, outputKey, ResponseItemEnvelope.new, Ne.symm hkey]
  exact ⟨hpaired, ((removeFirstItem_paired items hpaired 0).2 _ _ rfl).1.trans (by decide)⟩

end Codex.History
