import Mathlib.Data.List.Forall2
import Mathlib.Data.List.Infix

/-!
# Wildcard patterns

A pattern is a list of tokens.  A star stands for any run of items, every other token for
one item it accepts.  `Matches` says what a pattern matches; `scan` is the matcher that
goes through the items once and, when it gets stuck, goes back to the latest star only and
lets it take one item more.

`scan_decides` says that the matcher decides `Matches`, and that a fuel of
`(items + 1) * (tokens + 1)` is always enough: the place the latest star is retried from
only moves forward.
-/

namespace Codex

open List

namespace Glob

variable {τ α : Type*} (isStar : τ → Bool) (accept : τ → α → Bool)

/-- The items a pattern matches. -/
inductive Matches : List τ → List α → Prop
  | nil : Matches [] []
  | item {t : τ} {p : List τ} {x : α} {h : List α} (ht : isStar t = false)
      (hx : accept t x = true) (hrest : Matches p h) : Matches (t :: p) (x :: h)
  | star {t : τ} {p : List τ} {h : List α} (ht : isStar t = true) (hrest : Matches p h) :
      Matches (t :: p) h
  | take {t : τ} {p : List τ} {x : α} {h : List α} (ht : isStar t = true)
      (hrest : Matches (t :: p) h) : Matches (t :: p) (x :: h)

/-- Where the matcher is: the tokens and the items still to be read and, once it has met a
star, the tokens after the latest one with the items that star has not taken. -/
structure Cursor (τ α : Type*) where
  tokens : List τ
  items : List α
  latest : Option (List τ × List α)

/-- The latest star takes one item more. -/
def Cursor.retry (c : Cursor τ α) : Option (Cursor τ α) :=
  c.latest.map fun star => ⟨star.1, star.2.tail, some (star.1, star.2.tail)⟩

/-- One round of the matcher's loop; `none` is a failure. -/
def Cursor.next (c : Cursor τ α) : Option (Cursor τ α) :=
  match c.tokens, c.items with
  | t :: p, x :: h =>
    if isStar t then some ⟨p, x :: h, some (p, x :: h)⟩
    else if accept t x then some ⟨p, h, c.latest⟩
    else c.retry
  | _, _ => c.retry

/-- How the matcher's loop ends within the fuel, if it does: with the items, or where it is stuck. -/
def outcome : ℕ → Cursor τ α → Option Bool
  | 0, _ => none
  | fuel + 1, c =>
    if c.items.isEmpty then some (c.tokens.all isStar)
    else match c.next isStar accept with
      | none => some false
      | some c' => outcome fuel c'

/-- The matcher's answer; with too little fuel it is a failure. -/
def scan (fuel : ℕ) (c : Cursor τ α) : Bool := (outcome isStar accept fuel c).getD false

variable {isStar accept}

/-! ## What a pattern matches -/

variable {h : List α}

@[simp] theorem matches_nil_iff : Matches isStar accept [] h ↔ h = [] := by
  constructor
  · intro hm
    cases hm
    rfl
  · rintro rfl
    exact .nil

variable {p : List τ}

theorem matches_item_iff {t : τ} (ht : isStar t = false) :
    Matches isStar accept (t :: p) h ↔
      ∃ x rest, h = x :: rest ∧ accept t x = true ∧ Matches isStar accept p rest := by
  constructor
  · intro hm
    cases hm with
    | item _ hx hrest => exact ⟨_, _, rfl, hx, hrest⟩
    | star ht' _ => simp [ht] at ht'
    | take ht' _ => simp [ht] at ht'
  · rintro ⟨x, rest, rfl, hx, hrest⟩
    exact .item ht hx hrest

/-- A star matches what some rest of the items is left to the tokens after it. -/
theorem matches_star_iff {t : τ} (ht : isStar t = true) :
    Matches isStar accept (t :: p) h ↔ ∃ rest, rest <:+ h ∧ Matches isStar accept p rest := by
  constructor
  · intro hm
    induction h with
    | nil =>
      cases hm with
      | star _ hrest => exact ⟨[], suffix_rfl, hrest⟩
    | cons x h ih =>
      cases hm with
      | item ht' _ _ => simp [ht] at ht'
      | star _ hrest => exact ⟨x :: h, suffix_rfl, hrest⟩
      | take _ hrest =>
        obtain ⟨rest, hsuffix, hp⟩ := ih hrest
        exact ⟨rest, hsuffix.trans (suffix_cons x h), hp⟩
  · rintro ⟨rest, ⟨skipped, rfl⟩, hp⟩
    induction skipped with
    | nil => exact .star ht hp
    | cons x skipped ih => exact .take ht ih

theorem matches_append_iff {q : List τ} :
    Matches isStar accept (p ++ q) h ↔
      ∃ front back, h = front ++ back ∧ Matches isStar accept p front ∧
        Matches isStar accept q back := by
  induction p generalizing h with
  | nil => simp
  | cons t p ih =>
    cases ht : isStar t with
    | false =>
      simp only [cons_append, matches_item_iff ht, ih]
      constructor
      · rintro ⟨x, _, rfl, hx, front, back, rfl, hp, hq⟩
        exact ⟨x :: front, back, rfl, ⟨x, front, rfl, hx, hp⟩, hq⟩
      · rintro ⟨_, back, rfl, ⟨x, front, rfl, hx, hp⟩, hq⟩
        exact ⟨x, front ++ back, rfl, hx, front, back, rfl, hp, hq⟩
    | true =>
      simp only [cons_append, matches_star_iff ht, ih]
      constructor
      · rintro ⟨_, ⟨skipped, rfl⟩, front, back, rfl, hp, hq⟩
        refine ⟨skipped ++ front, back, by simp, ⟨front, ⟨skipped, rfl⟩, hp⟩, hq⟩
      · rintro ⟨_, back, rfl, ⟨front, ⟨skipped, rfl⟩, hp⟩, hq⟩
        exact ⟨front ++ back, ⟨skipped, by simp⟩, front, back, rfl, hp, hq⟩

/-- Only stars match no item at all. -/
theorem matches_nil_right_iff : Matches isStar accept p [] ↔ ∀ t ∈ p, isStar t = true := by
  induction p with
  | nil => simp
  | cons t p ih =>
    cases ht : isStar t with
    | false => simp [matches_item_iff ht, ht]
    | true => simp [matches_star_iff ht, ht, ih]

/-! ## The matcher -/

variable (isStar accept) in
/-- Tokens that are no stars, each accepting the item at its place. -/
def Fixed (w : List τ) (u : List α) : Prop :=
  List.Forall₂ (fun t x => isStar t = false ∧ accept t x = true) w u

theorem Fixed.matches_append {w : List τ} {u : List α} (hfixed : Fixed isStar accept w u)
    (hm : Matches isStar accept (w ++ p) h) :
    ∃ front back, h = front ++ back ∧ front.length = u.length ∧ Matches isStar accept p back := by
  induction hfixed generalizing h with
  | nil => exact ⟨[], h, rfl, rfl, hm⟩
  | cons hhead _ ih =>
    obtain ⟨x, rest, rfl, -, hrest⟩ := (matches_item_iff hhead.1).mp hm
    obtain ⟨front, back, rfl, hlength, hback⟩ := ih hrest
    exact ⟨x :: front, back, rfl, by simp [hlength], hback⟩

namespace Cursor

variable {c c' : Cursor τ α}

variable (isStar accept) in
/-- Since the latest star the matcher has read as many tokens as items. -/
def Anchored (c : Cursor τ α) : Prop :=
  ∀ resume pending, c.latest = some (resume, pending) →
    ∃ w u, Fixed isStar accept w u ∧ resume = w ++ c.tokens ∧ pending = u ++ c.items

variable (isStar accept) in
/-- The tokens after the latest star match once it has taken one item more, or several. -/
def Retries (c : Cursor τ α) : Prop :=
  ∃ resume pending rest, c.latest = some (resume, pending) ∧ rest <:+ pending.tail ∧
    Matches isStar accept resume rest

variable (isStar accept) in
/-- There is a match, from here on or by a retry. -/
def Finds (c : Cursor τ α) : Prop := Matches isStar accept c.tokens c.items ∨ c.Retries isStar accept

theorem suffix_tail_of_append_suffix {front back u : List α}
    (hsuffix : front ++ back <:+ (u ++ h).tail) (hlength : front.length = u.length) :
    back <:+ h.tail := by
  have hback : back <:+ u ++ h :=
    ((suffix_append front back).trans hsuffix).trans (tail_suffix _)
  have htail : h.tail <:+ u ++ h := (tail_suffix h).trans (suffix_append u h)
  have hle := hsuffix.length_le
  simp only [length_append, length_tail] at hle
  refine suffix_of_suffix_length_le hback htail ?_
  simp only [length_tail]
  omega

theorem eq_or_suffix_tail {rest : List α} (hsuffix : rest <:+ h) : rest = h ∨ rest <:+ h.tail := by
  cases h with
  | nil => exact .inl (suffix_nil.mp hsuffix)
  | cons x h => exact suffix_cons_iff.mp hsuffix

/-- Whatever a retry of the latest star finds, the tokens still to be read find it further on
among the items still to be read: no earlier star has to be retried. -/
theorem Anchored.of_retries (hanchored : c.Anchored isStar accept)
    (hretries : c.Retries isStar accept) :
    ∃ rest, rest <:+ c.items.tail ∧ Matches isStar accept c.tokens rest := by
  obtain ⟨resume, pending, rest, hlatest, hsuffix, hrest⟩ := hretries
  obtain ⟨w, u, hfixed, rfl, rfl⟩ := hanchored resume pending hlatest
  obtain ⟨front, back, rfl, hlength, hback⟩ := hfixed.matches_append hrest
  exact ⟨back, suffix_tail_of_append_suffix hsuffix hlength, hback⟩

/-- Where the items end, only stars may be left. -/
theorem Anchored.finds_iff_of_items_nil (hanchored : c.Anchored isStar accept)
    (hitems : c.items = []) : c.Finds isStar accept ↔ ∀ t ∈ c.tokens, isStar t = true := by
  have hnil : Matches isStar accept c.tokens c.items ↔ ∀ t ∈ c.tokens, isStar t = true := by
    rw [hitems]
    exact matches_nil_right_iff
  rw [← hnil]
  refine ⟨?_, .inl⟩
  rintro (hm | hretries)
  · exact hm
  · obtain ⟨rest, hsuffix, hm⟩ := hanchored.of_retries hretries
    rw [hitems, tail_nil, suffix_nil] at hsuffix
    rwa [hsuffix, ← hitems] at hm

/-- A new star finds what it could find and what every earlier one could. -/
theorem Anchored.finds_star {t : τ} (hanchored : c.Anchored isStar accept)
    (htokens : c.tokens = t :: p) (ht : isStar t = true) :
    Finds isStar accept ⟨p, c.items, some (p, c.items)⟩ ↔ c.Finds isStar accept := by
  have hstar : ∀ rest, rest <:+ c.items → Matches isStar accept p rest →
      Finds isStar accept ⟨p, c.items, some (p, c.items)⟩ := by
    intro rest hsuffix hm
    rcases eq_or_suffix_tail hsuffix with rfl | htail
    · exact .inl hm
    · exact .inr ⟨p, c.items, rest, rfl, htail, hm⟩
  constructor
  · rintro (hm | ⟨resume, pending, rest, hlatest, hsuffix, hm⟩)
    · refine .inl ?_
      rw [htokens]
      exact .star ht hm
    · cases hlatest
      refine .inl ?_
      rw [htokens, matches_star_iff ht]
      exact ⟨rest, hsuffix.trans (tail_suffix _), hm⟩
  · rintro (hm | hretries)
    · rw [htokens, matches_star_iff ht] at hm
      obtain ⟨rest, hsuffix, hm⟩ := hm
      exact hstar rest hsuffix hm
    · obtain ⟨rest, hsuffix, hm⟩ := hanchored.of_retries hretries
      rw [htokens, matches_star_iff ht] at hm
      obtain ⟨later, hlater, hm⟩ := hm
      exact hstar later ((hlater.trans hsuffix).trans (tail_suffix _)) hm

/-- A retry finds what is left to find where the tokens and the items at hand do not match. -/
theorem finds_retry (hstuck : ¬ Matches isStar accept c.tokens c.items) (hnext : c.retry = some c') :
    c'.Finds isStar accept ↔ c.Finds isStar accept := by
  obtain ⟨⟨resume, pending⟩, hlatest, rfl⟩ := Option.map_eq_some_iff.mp hnext
  constructor
  · rintro (hm | ⟨_, _, rest, heq, hsuffix, hm⟩)
    · exact .inr ⟨resume, pending, pending.tail, hlatest, suffix_rfl, hm⟩
    · cases heq
      exact .inr ⟨resume, pending, rest, hlatest, hsuffix.trans (tail_suffix _), hm⟩
  · rintro (hm | ⟨_, _, rest, heq, hsuffix, hm⟩)
    · exact absurd hm hstuck
    · rw [hlatest] at heq
      cases heq
      rcases eq_or_suffix_tail hsuffix with rfl | htail
      · exact .inl hm
      · exact .inr ⟨resume, pending.tail, rest, rfl, htail, hm⟩

variable (isStar accept) in
/-- What one round does: it meets a star, reads an item or, where neither is possible,
retries. -/
theorem next_cases (hitems : c.items ≠ []) :
    (∃ t p, c.tokens = t :: p ∧ isStar t = true ∧
      c.next isStar accept = some ⟨p, c.items, some (p, c.items)⟩) ∨
    (∃ t p x h, c.tokens = t :: p ∧ c.items = x :: h ∧ isStar t = false ∧ accept t x = true ∧
      c.next isStar accept = some ⟨p, h, c.latest⟩) ∨
    (¬ Matches isStar accept c.tokens c.items ∧ c.next isStar accept = c.retry) := by
  obtain ⟨tokens, items, latest⟩ := c
  obtain ⟨x, h, rfl⟩ := exists_cons_of_ne_nil hitems
  cases tokens with
  | nil => exact .inr (.inr ⟨by simp, rfl⟩)
  | cons t p =>
    cases ht : isStar t with
    | true => exact .inl ⟨t, p, rfl, ht, by simp [next, ht]⟩
    | false =>
      cases hx : accept t x with
      | true => exact .inr (.inl ⟨t, p, x, h, rfl, rfl, ht, hx, by simp [next, ht, hx]⟩)
      | false =>
        refine .inr (.inr ⟨?_, by simp [next, ht, hx]⟩)
        simp [matches_item_iff ht, hx]

/-- The items the latest star may still be retried on; before the first star, those unread. -/
def ahead (c : Cursor τ α) : ℕ := c.latest.elim c.items.length fun star => star.2.length

variable (isStar accept) in
/-- The loop's invariant, for a pattern of at most `bound` tokens. -/
structure Reading (bound : ℕ) (c : Cursor τ α) : Prop where
  anchored : c.Anchored isStar accept
  tokens_le : c.tokens.length ≤ bound
  resume_le : ∀ resume pending, c.latest = some (resume, pending) → resume.length ≤ bound

/-- What every round of the loop makes smaller. -/
def weight (bound : ℕ) (c : Cursor τ α) : ℕ := c.ahead * (bound + 1) + c.tokens.length

variable {bound : ℕ}

theorem Anchored.length_items_le_ahead (hanchored : c.Anchored isStar accept) :
    c.items.length ≤ c.ahead := by
  cases hlatest : c.latest with
  | none => simp [ahead, hlatest]
  | some star =>
    obtain ⟨w, u, -, -, hpending⟩ := hanchored star.1 star.2 hlatest
    simp [ahead, hlatest, hpending]

/-- Right behind a star nothing has been read. -/
theorem Reading.behind (hp : p.length ≤ bound) :
    Reading isStar accept bound ⟨p, h, some (p, h)⟩ := by
  refine ⟨?_, hp, ?_⟩
  · rintro resume pending heq
    cases heq
    exact ⟨[], [], .nil, rfl, rfl⟩
  · rintro resume pending heq
    cases heq
    exact hp

variable (hreading : c.Reading isStar accept bound)
include hreading

theorem Reading.star {t : τ} (htokens : c.tokens = t :: p) :
    Reading isStar accept bound ⟨p, c.items, some (p, c.items)⟩ ∧
      weight bound ⟨p, c.items, some (p, c.items)⟩ < c.weight bound := by
  have hlength : p.length + 1 ≤ bound := by simpa [htokens] using hreading.tokens_le
  have hahead := Nat.mul_le_mul_right (bound + 1) hreading.anchored.length_items_le_ahead
  refine ⟨.behind (by omega), ?_⟩
  simp only [weight, ahead, Option.elim_some, htokens, length_cons] at hahead ⊢
  omega

theorem Reading.item {t : τ} {x : α} (htokens : c.tokens = t :: p) (hitems : c.items = x :: h)
    (ht : isStar t = false) (hx : accept t x = true) :
    Reading isStar accept bound ⟨p, h, c.latest⟩ ∧
      weight bound ⟨p, h, c.latest⟩ < c.weight bound := by
  have hlength : p.length + 1 ≤ bound := by simpa [htokens] using hreading.tokens_le
  refine ⟨⟨?_, by dsimp only; omega, hreading.resume_le⟩, ?_⟩
  · intro resume pending hlatest
    obtain ⟨w, u, hfixed, hresume, hpending⟩ := hreading.anchored resume pending hlatest
    refine ⟨w ++ [t], u ++ [x], ?_, by simp [hresume, htokens], by simp [hpending, hitems]⟩
    exact rel_append hfixed (.cons ⟨ht, hx⟩ .nil)
  · have hahead : ahead ⟨p, h, c.latest⟩ ≤ c.ahead := by
      cases hlatest : c.latest <;> simp [ahead, hlatest, hitems]
    have hmul := Nat.mul_le_mul_right (bound + 1) hahead
    simp only [weight, htokens, length_cons]
    omega

theorem Reading.retry (hitems : c.items ≠ []) (hnext : c.retry = some c') :
    c'.Reading isStar accept bound ∧ c'.weight bound < c.weight bound := by
  obtain ⟨⟨resume, pending⟩, hlatest, rfl⟩ := Option.map_eq_some_iff.mp hnext
  have hresume := hreading.resume_le resume pending hlatest
  refine ⟨.behind hresume, ?_⟩
  have hpos : 0 < pending.length := by
    have hle := hreading.anchored.length_items_le_ahead
    simp only [ahead, hlatest] at hle
    exact (length_pos_iff.mpr hitems).trans_le hle
  obtain ⟨n, hn⟩ := Nat.exists_eq_add_of_lt hpos
  simp only [weight, ahead, hlatest, Option.elim_some, length_tail, hn,
    Nat.add_sub_cancel, Nat.add_mul]
  omega

/-- One round keeps the invariant and what there is to find, and comes closer to the end. -/
theorem Reading.next_spec (hitems : c.items ≠ []) :
    (c.next isStar accept = none ∧ ¬ c.Finds isStar accept) ∨
    ∃ c', c.next isStar accept = some c' ∧ c'.Reading isStar accept bound ∧
      c'.weight bound < c.weight bound ∧ (c'.Finds isStar accept ↔ c.Finds isStar accept) := by
  obtain ⟨t, p, htokens, ht, hnext⟩ | ⟨t, p, x, h, htokens, hx, ht, haccept, hnext⟩ |
    ⟨hstuck, hnext⟩ := next_cases isStar accept hitems
  · obtain ⟨hreading', hweight⟩ := hreading.star htokens
    exact .inr ⟨_, hnext, hreading', hweight, hreading.anchored.finds_star htokens ht⟩
  · obtain ⟨hreading', hweight⟩ := hreading.item htokens hx ht haccept
    refine .inr ⟨_, hnext, hreading', hweight, ?_⟩
    simp only [Finds, Retries, htokens, hx, matches_item_iff ht]
    simp [haccept]
  · rw [hnext]
    cases hretry : c.retry with
    | none =>
      refine .inl ⟨rfl, ?_⟩
      rintro (hm | ⟨resume, pending, rest, hlatest, -⟩)
      · exact hstuck hm
      · simp [Cursor.retry, hlatest] at hretry
    | some c' =>
      obtain ⟨hreading', hweight⟩ := hreading.retry hitems hretry
      exact .inr ⟨c', rfl, hreading', hweight, finds_retry hstuck hretry⟩

/-- The loop ends, and with the answer whether there is something to find. -/
theorem Reading.outcome_spec {fuel : ℕ} (hfuel : c.weight bound < fuel) :
    ∃ found, outcome isStar accept fuel c = some found ∧ (found = true ↔ c.Finds isStar accept) := by
  induction fuel generalizing c with
  | zero => omega
  | succ fuel ih =>
    by_cases hitems : c.items = []
    · rw [hreading.anchored.finds_iff_of_items_nil hitems]
      exact ⟨c.tokens.all isStar, by simp [outcome, hitems], by simp⟩
    · have houtcome : outcome isStar accept (fuel + 1) c =
          match c.next isStar accept with
          | none => some false
          | some c' => outcome isStar accept fuel c' := by
        simp [outcome, hitems]
      rw [houtcome]
      obtain ⟨hnext, hnone⟩ | ⟨c', hnext, hreading', hweight, hfinds⟩ :=
        hreading.next_spec hitems
      · exact ⟨false, by rw [hnext], by simp [hnone]⟩
      · rw [hnext, ← hfinds]
        exact ih hreading' (by omega)

end Cursor

/-- The matcher ends and decides whether the pattern matches the items. -/
theorem scan_decides {tokens : List τ} {items : List α} {fuel : ℕ}
    (hfuel : (items.length + 1) * (tokens.length + 1) ≤ fuel) :
    outcome isStar accept fuel ⟨tokens, items, none⟩ =
        some (scan isStar accept fuel ⟨tokens, items, none⟩) ∧
      (scan isStar accept fuel ⟨tokens, items, none⟩ = true ↔
        Matches isStar accept tokens items) := by
  have hreading : Cursor.Reading isStar accept tokens.length ⟨tokens, items, none⟩ :=
    ⟨by rintro _ _ ⟨⟩, le_rfl, by rintro _ _ ⟨⟩⟩
  have hweight : Cursor.weight tokens.length ⟨tokens, items, none⟩ < fuel := by
    simp only [Cursor.weight, Cursor.ahead, Option.elim_none, Nat.add_mul] at hfuel ⊢
    omega
  obtain ⟨found, houtcome, hfound⟩ := hreading.outcome_spec hweight
  rw [scan, houtcome]
  exact ⟨rfl, hfound.trans (by simp [Cursor.Finds, Cursor.Retries])⟩

end Glob

end Codex
