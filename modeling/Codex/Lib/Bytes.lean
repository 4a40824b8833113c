import Codex.Lib.Text

/-!
# Bytes of a text

The byte encodings that a `file:` URI goes through: UTF-8 and UTF-16, percent
encoding, base64 in its URL-safe form without padding, and ASCII case folding.  A
byte is its number.

What the development needs about them is how they behave under case folding:
percent decoding and the test for well-formed UTF-8 do not depend on the case of
ASCII letters (`foldCase_percentDecode`, `validUtf8_foldCase`); and that base64 comes
back from its encoding (`base64Decode_base64Encode`).
-/

namespace Codex.Bytes

open List

/-! ## Text as bytes -/

/-- The UTF-8 form of a character. -/
def utf8Char (c : Char) : List ℕ :=
  let n := c.toNat
  if n < 0x80 then [n]
  else if n < 0x800 then [0xC0 + n / 0x40, 0x80 + n % 0x40]
  else if n < 0x10000 then [0xE0 + n / 0x1000, 0x80 + n / 0x40 % 0x40, 0x80 + n % 0x40]
  else [0xF0 + n / 0x40000, 0x80 + n / 0x1000 % 0x40, 0x80 + n / 0x40 % 0x40, 0x80 + n % 0x40]

/-- `str::as_bytes`. -/
def asBytes (s : Str) : List ℕ := s.flatMap utf8Char

theorem utf8Char_ne_nil (c : Char) : utf8Char c ≠ [] := by
  unfold utf8Char
  dsimp only
  split_ifs <;> simp

theorem asBytes_append (s t : Str) : asBytes (s ++ t) = asBytes s ++ asBytes t :=
  flatMap_append

theorem asBytes_eq_nil_iff {s : Str} : asBytes s = [] ↔ s = [] := by
  cases s with
  | nil => simp [asBytes]
  | cons c rest => simp [asBytes, utf8Char_ne_nil]

/-- The UTF-16 form of a character, each unit with its low byte first. -/
def utf16leChar (c : Char) : List ℕ :=
  let unit := fun u : ℕ => [u % 0x100, u / 0x100]
  let n := c.toNat
  if n < 0x10000 then unit n
  else unit (0xD800 + (n - 0x10000) / 0x400) ++ unit (0xDC00 + (n - 0x10000) % 0x400)

/-- `str::encode_utf16`, as little-endian bytes. -/
def encodeUtf16le (s : Str) : List ℕ := s.flatMap utf16leChar

/-- What comes next in a UTF-8 text: a character, or the continuation of one, whose next
byte lies between two bounds. -/
inductive Utf8State where
  | start
  | continuation (more : ℕ) (low high : ℕ)
  deriving DecidableEq, Repr

def Utf8State.step : Utf8State → ℕ → Option Utf8State
  | .start, b =>
    if b < 0x80 then some .start
    else if 0xC2 ≤ b ∧ b ≤ 0xDF then some (.continuation 0 0x80 0xBF)
    else if b = 0xE0 then some (.continuation 1 0xA0 0xBF)
    else if b = 0xED then some (.continuation 1 0x80 0x9F)
    else if 0xE1 ≤ b ∧ b ≤ 0xEF then some (.continuation 1 0x80 0xBF)
    else if b = 0xF0 then some (.continuation 2 0x90 0xBF)
    else if 0xF1 ≤ b ∧ b ≤ 0xF3 then some (.continuation 2 0x80 0xBF)
    else if b = 0xF4 then some (.continuation 2 0x80 0x8F)
    else none
  | .continuation more low high, b =>
    if 0x80 ≤ b ∧ low ≤ b ∧ b ≤ high then
      match more with
      | 0 => some .start
      | more + 1 => some (.continuation more 0x80 0xBF)
    else none

/-- `str::from_utf8` succeeds. -/
def validUtf8 (bytes : List ℕ) : Bool := bytes.foldlM Utf8State.step .start = some .start

/-! ## Case folding -/

/-- `u8::to_ascii_lowercase`. -/
def toAsciiLowercase (b : ℕ) : ℕ := if 65 ≤ b ∧ b ≤ 90 then b + 32 else b

/-- What `eq_ignore_ascii_case` compares. -/
def foldCase (bytes : List ℕ) : List ℕ := bytes.map toAsciiLowercase

/-- A byte that is no letter comes from itself only. -/
theorem toAsciiLowercase_eq_iff {b c : ℕ} (hc : c < 65 ∨ 90 < c ∧ c < 97) :
    toAsciiLowercase b = c ↔ b = c := by
  unfold toAsciiLowercase
  split_ifs <;> omega

theorem foldCase_flatMap_slash (parts : List (List ℕ)) :
    foldCase (parts.flatMap (47 :: ·)) = (parts.map foldCase).flatMap (47 :: ·) := by
  induction parts with
  | nil => rfl
  | cons part rest ih =>
    rw [flatMap_cons, map_cons, flatMap_cons, ← ih]
    simp [foldCase, toAsciiLowercase]

/-- Parts that do not hold their separator can be read off from what they are joined to. -/
theorem flatMap_cons_injective {separator : ℕ} {left right : List (List ℕ)}
    (hleft : ∀ part ∈ left, separator ∉ part) (hright : ∀ part ∈ right, separator ∉ part)
    (h : left.flatMap (separator :: ·) = right.flatMap (separator :: ·)) : left = right := by
  have htake : ∀ (part : List ℕ) (rest : List (List ℕ)), separator ∉ part →
      (part ++ rest.flatMap (separator :: ·)).takeWhile (· ≠ separator) = part := by
    intro part rest hpart
    rw [takeWhile_append_of_pos]
    · cases rest <;> simp
    · intro b hb
      simpa using fun heq : b = separator => hpart (heq ▸ hb)
  induction left generalizing right with
  | nil =>
    cases right with
    | nil => rfl
    | cons part rest => simp at h
  | cons part rest ih =>
    cases right with
    | nil => simp at h
    | cons part' rest' =>
      simp only [flatMap_cons, cons_append, List.cons.injEq, true_and] at h
      have hpart : part = part' := by
        rw [← htake part rest (hleft part (mem_cons_self ..)), h,
          htake part' rest' (hright part' (mem_cons_self ..))]
      subst hpart
      rw [ih (fun p hp => hleft p (mem_cons_of_mem _ hp))
        (fun p hp => hright p (mem_cons_of_mem _ hp)) (append_cancel_left h)]

theorem Utf8State.step_toAsciiLowercase (state : Utf8State) (b : ℕ) :
    state.step (toAsciiLowercase b) = state.step b := by
  unfold toAsciiLowercase
  split_ifs with h
  · -- an ASCII letter is a character of its own, and never continues one
    have hletter : b < 0x80 ∧ b + 32 < 0x80 := by omega
    cases state with
    | start => simp only [step, hletter.1, hletter.2, if_true]
    | continuation more low high =>
      have hnot : ¬ (0x80 ≤ b ∧ low ≤ b ∧ b ≤ high) := by omega
      have hnot' : ¬ (0x80 ≤ b + 32 ∧ low ≤ b + 32 ∧ b + 32 ≤ high) := by omega
      simp only [step, if_neg hnot, if_neg hnot']
  · rfl

theorem foldlM_step_foldCase (state : Utf8State) (bytes : List ℕ) :
    (foldCase bytes).foldlM Utf8State.step state = bytes.foldlM Utf8State.step state := by
  induction bytes generalizing state with
  | nil => rfl
  | cons b rest ih =>
    rw [foldCase, map_cons, foldlM_cons, foldlM_cons, Utf8State.step_toAsciiLowercase]
    cases state.step b with
    | none => rfl
    | some next => exact ih next

theorem validUtf8_foldCase (bytes : List ℕ) : validUtf8 (foldCase bytes) = validUtf8 bytes := by
  unfold validUtf8
  rw [foldlM_step_foldCase]

/-! ## Percent encoding -/

def hexValue (b : ℕ) : Option ℕ :=
  if 48 ≤ b ∧ b ≤ 57 then some (b - 48)
  else if 65 ≤ b ∧ b ≤ 70 then some (b - 55)
  else if 97 ≤ b ∧ b ≤ 102 then some (b - 87)
  else none

/-- `urlencoding::decode_binary`, by its documentation: two hex digits behind a percent sign are one
byte, and a percent sign that no two hex digits follow stands for itself. -/
def percentDecode : List ℕ → List ℕ
  | [] => []
  | [b] => [b]
  | [b, c] => [b, c]
  | b :: high :: low :: rest =>
    if b = 37 ∧ (hexValue high).isSome ∧ (hexValue low).isSome then
      (16 * (hexValue high).getD 0 + (hexValue low).getD 0) :: percentDecode rest
    else b :: percentDecode (high :: low :: rest)

theorem hexValue_toAsciiLowercase (b : ℕ) : hexValue (toAsciiLowercase b) = hexValue b := by
  unfold hexValue toAsciiLowercase
  by_cases hupper : 65 ≤ b ∧ b ≤ 90
  · rw [if_pos hupper]
    by_cases hdigit : b ≤ 70
    · rw [if_neg (by omega), if_neg (by omega), if_pos (by omega), if_neg (by omega),
        if_pos (by omega)]
      exact congrArg some (by omega)
    · rw [if_neg (by omega), if_neg (by omega), if_neg (by omega), if_neg (by omega),
        if_neg (by omega), if_neg (by omega)]
  · rw [if_neg hupper]

theorem toAsciiLowercase_idem (b : ℕ) :
    toAsciiLowercase (toAsciiLowercase b) = toAsciiLowercase b := by
  unfold toAsciiLowercase
  split_ifs <;> omega

/-- Up to case, decoding does not depend on the case of what is decoded. -/
theorem foldCase_percentDecode (bytes : List ℕ) :
    foldCase (percentDecode (foldCase bytes)) = foldCase (percentDecode bytes) := by
  have hfold : ∀ b high low rest, foldCase (b :: high :: low :: rest) =
      toAsciiLowercase b :: toAsciiLowercase high :: toAsciiLowercase low :: foldCase rest :=
    fun _ _ _ _ => rfl
  induction bytes using percentDecode.induct with
  | case1 => rfl
  | case2 b | case3 b c => simp [foldCase, percentDecode, toAsciiLowercase_idem]
  | case4 b high low rest hsequence ih =>
    rw [hfold, percentDecode, percentDecode, if_pos hsequence, if_pos]
    · rw [hexValue_toAsciiLowercase, hexValue_toAsciiLowercase]
      exact congrArg (List.cons _) ih
    · simpa [toAsciiLowercase_eq_iff, hexValue_toAsciiLowercase] using hsequence
  | case5 b high low rest hsequence ih =>
    rw [hfold, percentDecode, percentDecode, if_neg hsequence, if_neg]
    · exact congrArg₂ List.cons (toAsciiLowercase_idem b) ih
    · simpa [toAsciiLowercase_eq_iff, hexValue_toAsciiLowercase] using hsequence

theorem foldCase_percentDecode_congr {bytes bytes' : List ℕ}
    (h : foldCase bytes = foldCase bytes') :
    foldCase (percentDecode bytes) = foldCase (percentDecode bytes') := by
  rw [← foldCase_percentDecode bytes, h, foldCase_percentDecode]

theorem validUtf8_congr {bytes bytes' : List ℕ} (h : foldCase bytes = foldCase bytes') :
    validUtf8 bytes = validUtf8 bytes' := by
  rw [← validUtf8_foldCase bytes, h, validUtf8_foldCase]

theorem percentDecode_cons_of_ne {b : ℕ} (hb : b ≠ 37) (bytes : List ℕ) :
    percentDecode (b :: bytes) = b :: percentDecode bytes := by
  match bytes with
  | [] => rfl
  | [c] => rfl
  | c :: d :: rest => rw [percentDecode, if_neg (fun h => hb h.1)]

/-- A percent sequence is one byte. -/
theorem percentDecode_sequence {high low x y : ℕ} (hhigh : hexValue high = some x)
    (hlow : hexValue low = some y) (rest : List ℕ) :
    percentDecode (37 :: high :: low :: rest) = (16 * x + y) :: percentDecode rest := by
  simp [percentDecode, hhigh, hlow]

theorem percentDecode_eq_self {bytes : List ℕ} (h : 37 ∉ bytes) : percentDecode bytes = bytes := by
  induction bytes with
  | nil => rfl
  | cons b rest ih =>
    obtain ⟨hb, hrest⟩ := ne_and_not_mem_of_not_mem_cons h
    rw [percentDecode_cons_of_ne hb.symm, ih hrest]

/-- A byte that takes no part in percent sequences separates what is decoded. -/
theorem percentDecode_append_cons {b : ℕ} (hb : b ≠ 37) (hhex : hexValue b = none)
    (left right : List ℕ) :
    percentDecode (left ++ b :: right) = percentDecode left ++ b :: percentDecode right := by
  have hsingle : ∀ c, percentDecode (c :: b :: right) = c :: b :: percentDecode right := by
    intro c
    cases right with
    | nil => rfl
    | cons d rest =>
      rw [percentDecode, if_neg (by simp [hhex]), percentDecode_cons_of_ne hb]
  induction left using percentDecode.induct with
  | case1 => exact percentDecode_cons_of_ne hb right
  | case2 c => exact hsingle c
  | case3 c d =>
    have hpair : percentDecode (c :: d :: b :: right) = c :: percentDecode (d :: b :: right) := by
      rw [percentDecode, if_neg (by simp [hhex])]
    exact hpair.trans (congrArg (List.cons c) (hsingle d))
  | case4 c high low rest hsequence ih =>
    rw [cons_append, cons_append, cons_append, percentDecode, if_pos hsequence,
      percentDecode, if_pos hsequence, ih, cons_append]
  | case5 c high low rest hsequence ih =>
    rw [cons_append, cons_append, cons_append, percentDecode, if_neg hsequence,
      percentDecode, if_neg hsequence]
    exact congrArg (List.cons c) ih

theorem percentDecode_intercalate (segments : List (List ℕ)) :
    percentDecode ([47].intercalate segments) = [47].intercalate (segments.map percentDecode) := by
  induction segments with
  | nil => rfl
  | cons segment rest ih =>
    cases rest with
    | nil => simp
    | cons next others =>
      rw [intercalate_cons_cons, List.append_assoc, singleton_append,
        percentDecode_append_cons (by decide) rfl, ih]
      simp [intercalate_cons_cons]

theorem percentDecode_eq_nil_iff {bytes : List ℕ} : percentDecode bytes = [] ↔ bytes = [] := by
  match bytes with
  | [] => simp [percentDecode]
  | [b] => simp [percentDecode]
  | [b, c] => simp [percentDecode]
  | b :: high :: low :: rest =>
    rw [percentDecode]
    split_ifs <;> simp

/-! ## Base64 -/

def base64Value (c : Char) : Option ℕ :=
  let n := c.toNat
  if 65 ≤ n ∧ n ≤ 90 then some (n - 65)
  else if 97 ≤ n ∧ n ≤ 122 then some (n - 71)
  else if 48 ≤ n ∧ n ≤ 57 then some (n + 4)
  else if c = '-' then some 62
  else if c = '_' then some 63
  else none

def base64Char (value : ℕ) : Char :=
  if value < 26 then Char.ofNat (value + 65)
  else if value < 52 then Char.ofNat (value + 71)
  else if value < 62 then Char.ofNat (value - 4)
  else if value = 62 then '-'
  else '_'

/-- `URL_SAFE_NO_PAD.encode` of the `base64` crate: three bytes are four characters of the URL-safe
alphabet, and a shorter rest is not padded. -/
def base64Encode : List ℕ → Str
  | [] => []
  | [a] => [base64Char (a / 4), base64Char (a % 4 * 16)]
  | [a, b] => [base64Char (a / 4), base64Char (a % 4 * 16 + b / 16), base64Char (b % 16 * 4)]
  | a :: b :: c :: rest =>
    base64Char (a / 4) :: base64Char (a % 4 * 16 + b / 16) ::
      base64Char (b % 16 * 4 + c / 64) :: base64Char (c % 64) :: base64Encode rest

/-- `URL_SAFE_NO_PAD.decode` of the same crate, without its test for left-over bits: the callers
encode the result again and compare. -/
def base64Decode : Str → Option (List ℕ)
  | [] => some []
  | [_] => none
  | [a, b] => do
      let a ← base64Value a
      let b ← base64Value b
      return [a * 4 + b / 16]
  | [a, b, c] => do
      let a ← base64Value a
      let b ← base64Value b
      let c ← base64Value c
      return [a * 4 + b / 16, b % 16 * 16 + c / 4]
  | a :: b :: c :: d :: rest => do
      let a ← base64Value a
      let b ← base64Value b
      let c ← base64Value c
      let d ← base64Value d
      let rest ← base64Decode rest
      return (a * 4 + b / 16) :: (b % 16 * 16 + c / 4) :: (c % 4 * 64 + d) :: rest

theorem base64Value_base64Char {value : ℕ} (h : value < 64) :
    base64Value (base64Char value) = some value := by
  have hall : ∀ value < 64, base64Value (base64Char value) = some value := by decide
  exact hall value h

theorem base64Decode_base64Encode {bytes : List ℕ} (h : ∀ b ∈ bytes, b < 256) :
    base64Decode (base64Encode bytes) = some bytes := by
  induction bytes using base64Encode.induct with
  | case1 => rfl
  | case2 a =>
    have ha := h a (by simp)
    simp (disch := omega) only [base64Encode, base64Decode, base64Value_base64Char,
      Option.bind_eq_bind, Option.bind_some, Option.pure_def, Option.some.injEq, List.cons.injEq,
      and_true]
    omega
  | case3 a b =>
    have hab : a < 256 ∧ b < 256 := by simpa using h
    simp (disch := omega) only [base64Encode, base64Decode, base64Value_base64Char,
      Option.bind_eq_bind, Option.bind_some, Option.pure_def, Option.some.injEq, List.cons.injEq,
      and_true]
    omega
  | case4 a b c rest ih =>
    obtain ⟨ha, hb, hc, hrest⟩ : a < 256 ∧ b < 256 ∧ c < 256 ∧ ∀ d ∈ rest, d < 256 := by
      simpa using h
    simp (disch := omega) only [base64Encode, base64Decode, base64Value_base64Char, ih hrest,
      Option.bind_eq_bind, Option.bind_some, Option.pure_def, Option.some.injEq, List.cons.injEq,
      and_true]
    omega

end Codex.Bytes
