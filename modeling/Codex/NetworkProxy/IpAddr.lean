import Codex.Lib.Text

/-!
# IP addresses

The address parser of the standard library, which the network proxy calls on every host,
and the classes of addresses that are no public destinations.

The parser reads from the front of a text and hands on the rest.  Three facts about it are used
below:

* what it reads has a small alphabet and does not end with a dot, and a single colon, which the proxy
  takes for the start of a port, is not part of an address (`addressText_of_parseIpAddr`);
* an IPv6 address has two colons at least (`readIpv6Addr_takes`);
* an IPv4 address has one spelling (`eq_text_of_parseIpAddr`).
-/

namespace Codex.NetworkProxy

open List

/-! ## Addresses -/

structure Ipv4Addr where
  a : BitVec 8
  b : BitVec 8
  c : BitVec 8
  d : BitVec 8
  deriving DecidableEq, Repr

structure Ipv6Addr where
  segments : List (BitVec 16)
  length_eq : segments.length = 8
  deriving DecidableEq

inductive IpAddr where
  | v4 (ip : Ipv4Addr)
  | v6 (ip : Ipv6Addr)
  deriving DecidableEq

variable (ip : Ipv4Addr)

/-- An address with its octets as one number. -/
def Ipv4Addr.toBits : BitVec 32 := ip.a ++ ip.b ++ ip.c ++ ip.d

/-- The address with these groups in front and zeros behind. -/
def Ipv6Addr.ofGroups (groups : List (BitVec 16)) : Ipv6Addr :=
  ⟨(groups ++ List.replicate 8 0).take 8, by simp⟩

def Ipv6Addr.segment (ip : Ipv6Addr) (i : ℕ) : BitVec 16 := ip.segments.getD i 0

/-! ## The parser of the standard library -/

abbrev Reader (α : Type) := Str → Option (α × Str)

def toDigit (radix : ℕ) (c : Char) : Option ℕ :=
  (if '0' ≤ c ∧ c ≤ '9' then some (c.toNat - 48)
    else if 'a' ≤ c ∧ c ≤ 'z' then some (c.toNat - 87)
    else if 'A' ≤ c ∧ c ≤ 'Z' then some (c.toNat - 55)
    else none).filter (· < radix)

/-- A number below `limit`, of at most `maxDigits` digits. -/
def readNumber (radix maxDigits limit : ℕ) (allowZeroPrefix : Bool) : Reader ℕ := fun s =>
  let digits := s.takeWhile fun c => (toDigit radix c).isSome
  let value := digits.foldl (fun value c => value * radix + (toDigit radix c).getD 0) 0
  if digits = [] ∨ maxDigits < digits.length then none
  else if ¬ allowZeroPrefix ∧ digits.head? = some '0' ∧ 1 < digits.length then none
  else if value < limit then some (value, s.dropWhile fun c => (toDigit radix c).isSome)
  else none

/-- The first item stands alone; each later one follows a separator. -/
def readSeparator {α : Type} (separator : Char) (first : Bool) (inner : Reader α) : Reader α
  | c :: s => if first then inner (c :: s) else if c = separator then inner s else none
  | [] => if first then inner [] else none

def readOctet : Reader ℕ := readNumber 10 3 256 false

def readIpv4Addr : Reader Ipv4Addr := fun s => do
  let (a, s) ← readSeparator '.' true readOctet s
  let (b, s) ← readSeparator '.' false readOctet s
  let (c, s) ← readSeparator '.' false readOctet s
  let (d, s) ← readSeparator '.' false readOctet s
  return (⟨.ofNat 8 a, .ofNat 8 b, .ofNat 8 c, .ofNat 8 d⟩, s)

/-- Reads groups into `left` slots: the groups, whether the last two of them were written
as an IPv4 address, and the rest of the text. -/
def readGroups : (left : ℕ) → (first : Bool) → Str → List (BitVec 16) × Bool × Str
  | 0, _, s => ([], false, s)
  | left + 1, first, s =>
    -- an embedded IPv4 address takes two slots
    match if 0 < left then readSeparator ':' first readIpv4Addr s else none with
    | some (ip, rest) => ([ip.a ++ ip.b, ip.c ++ ip.d], true, rest)
    | none =>
      match readSeparator ':' first (readNumber 16 4 65536 true) s with
      | some (group, rest) =>
        let (groups, ipv4, rest) := readGroups left false rest
        (.ofNat 16 group :: groups, ipv4, rest)
      | none => ([], false, s)

def readIpv6Addr : Reader Ipv6Addr := fun s =>
  let (head, ipv4, rest) := readGroups 8 true s
  if head.length = 8 then some (.ofGroups head, rest)
  else if ipv4 then none
  else match rest with
    | ':' :: ':' :: rest =>
      let (tail, _, rest) := readGroups (7 - head.length) true rest
      some (.ofGroups (head ++ List.replicate (8 - head.length - tail.length) 0 ++ tail), rest)
    | _ => none

def parseWith {α : Type} (reader : Reader α) (s : Str) : Option α :=
  match reader s with
  | some (a, []) => some a
  | _ => none

def parseIpv6Addr (s : Str) : Option Ipv6Addr := parseWith readIpv6Addr s

def parseIpAddr (s : Str) : Option IpAddr :=
  parseWith (fun s => ((readIpv4Addr s).map fun (ip, rest) => (.v4 ip, rest)) <|>
    ((readIpv6Addr s).map fun (ip, rest) => (.v6 ip, rest))) s

/-! ## Addresses that are no public destinations -/

def Ipv4Addr.isLoopback : Bool := ip.a = 127

def Ipv4Addr.isPrivate : Bool :=
  ip.a = 10 ∨ (ip.a = 172 ∧ 16 ≤ ip.b ∧ ip.b ≤ 31) ∨ (ip.a = 192 ∧ ip.b = 168)

def Ipv4Addr.isLinkLocal : Bool := ip.a = 169 ∧ ip.b = 254

def Ipv4Addr.isUnspecified : Bool := ip = ⟨0, 0, 0, 0⟩

def Ipv4Addr.isMulticast : Bool := 224 ≤ ip.a ∧ ip.a ≤ 239

def Ipv4Addr.isBroadcast : Bool := ip = ⟨255, 255, 255, 255⟩

def ipv4InCidr (ip base : Ipv4Addr) (bits : ℕ) : Bool :=
  let mask : BitVec 32 := if bits = 0 then 0 else BitVec.allOnes 32 <<< (32 - bits)
  ip.toBits &&& mask = base.toBits &&& mask

def isNonPublicIpv4 : Bool :=
  ip.isLoopback || ip.isPrivate || ip.isLinkLocal || ip.isUnspecified || ip.isMulticast ||
    ip.isBroadcast || ipv4InCidr ip ⟨0, 0, 0, 0⟩ 8 || ipv4InCidr ip ⟨100, 64, 0, 0⟩ 10 ||
    ipv4InCidr ip ⟨192, 0, 0, 0⟩ 24 || ipv4InCidr ip ⟨192, 0, 2, 0⟩ 24 ||
    ipv4InCidr ip ⟨198, 18, 0, 0⟩ 15 || ipv4InCidr ip ⟨198, 51, 100, 0⟩ 24 ||
    ipv4InCidr ip ⟨203, 0, 113, 0⟩ 24 || ipv4InCidr ip ⟨240, 0, 0, 0⟩ 4

section

variable (ip : Ipv6Addr)

/-- The IPv4 address that an IPv4-compatible or IPv4-mapped address stands for. -/
def Ipv6Addr.toIpv4 : Option Ipv4Addr :=
  if ip.segments.take 5 = List.replicate 5 0 ∧ (ip.segment 5 = 0 ∨ ip.segment 5 = 0xffff) then
    some ⟨(ip.segment 6).extractLsb' 8 8, (ip.segment 6).extractLsb' 0 8,
      (ip.segment 7).extractLsb' 8 8, (ip.segment 7).extractLsb' 0 8⟩
  else none

def Ipv6Addr.isLoopback : Bool := ip = .ofGroups [0, 0, 0, 0, 0, 0, 0, 1]

def Ipv6Addr.isUnspecified : Bool := ip = .ofGroups []

def Ipv6Addr.isMulticast : Bool := ip.segment 0 &&& 0xff00 = 0xff00

def Ipv6Addr.isUniqueLocal : Bool := ip.segment 0 &&& 0xfe00 = 0xfc00

def Ipv6Addr.isUnicastLinkLocal : Bool := ip.segment 0 &&& 0xffc0 = 0xfe80

def isNonPublicIpv6 : Bool :=
  match ip.toIpv4 with
  | some v4 => isNonPublicIpv4 v4 || ip.isLoopback
  | none =>
    ip.isLoopback || ip.isUnspecified || ip.isMulticast || ip.isUniqueLocal || ip.isUnicastLinkLocal

end

def isNonPublicIp : IpAddr → Bool
  | .v4 ip => isNonPublicIpv4 ip
  | .v6 ip => isNonPublicIpv6 ip

def IpAddr.isLoopback : IpAddr → Bool
  | .v4 ip => ip.isLoopback
  | .v6 ip => ip.isLoopback

/-! ## What the parser reads -/

/-- The characters an address can be written with. -/
def isIpChar (c : Char) : Bool := c = '.' || c = ':' || (toDigit 16 c).isSome

/-- The reader takes a part of the text that has the property, and leaves the rest. -/
def Reader.Takes {α : Type} (reader : Reader α) (P : Str → Prop) : Prop :=
  ∀ s a rest, reader s = some (a, rest) → ∃ used, s = used ++ rest ∧ P used

def IpText (s : Str) : Prop := ∀ c ∈ s, isIpChar c = true

theorem IpText.append {s t : Str} (hs : IpText s) (ht : IpText t) : IpText (s ++ t) := by
  intro c hc
  rcases mem_append.mp hc with h | h
  · exact hs c h
  · exact ht c h

/-- Some digits. -/
def Digits (s : Str) : Prop := s ≠ [] ∧ ∀ c ∈ s, (toDigit 16 c).isSome = true

/-- An address, or a part of one at whose end it may stop. -/
structure AddressText (s : Str) : Prop where
  chars : IpText s
  last : s.getLast? ≠ some '.'

theorem AddressText.append {s t : Str} (hs : AddressText s) (ht : AddressText t) :
    AddressText (s ++ t) := by
  refine ⟨hs.chars.append ht.chars, ?_⟩
  rw [getLast?_append]
  cases hlast : t.getLast? with
  | none => simpa using hs.last
  | some c => simpa [hlast] using ht.last

theorem Digits.notMem {s : Str} (h : Digits s) {c : Char} (hc : toDigit 16 c = none) : c ∉ s := by
  intro hmem
  have hsome := h.2 c hmem
  rw [hc] at hsome
  cases hsome

theorem Digits.addressText {s : Str} (h : Digits s) : AddressText s where
  chars c hc := by simp [isIpChar, h.2 c hc]
  last hlast := h.notMem (by decide) (mem_of_getLast? hlast)

/-- A separator stands in front of something. -/
theorem AddressText.cons {c : Char} {s : Str} (hc : isIpChar c = true) (hs : AddressText s)
    (hne : s ≠ []) : AddressText (c :: s) := by
  refine ⟨IpText.append (s := [c]) (by simpa [IpText] using hc) hs.chars, ?_⟩
  rw [getLast?_cons_of_ne_nil hne]
  exact hs.last

theorem readNumber_takes {radix maxDigits limit : ℕ} {allowZeroPrefix : Bool}
    (hradix : radix ≤ 16) :
    (readNumber radix maxDigits limit allowZeroPrefix).Takes Digits := by
  intro s value rest h
  simp only [readNumber] at h
  split_ifs at h with hdigits
  cases h
  refine ⟨s.takeWhile fun c => (toDigit radix c).isSome, by simp,
    fun hnil => hdigits (.inl hnil), fun c hc => ?_⟩
  have hdigit := all_eq_true.mp (all_takeWhile (l := s)) c hc
  obtain ⟨value, hvalue⟩ := Option.isSome_iff_exists.mp hdigit
  obtain ⟨hread, hlt⟩ := Option.filter_eq_some_iff.mp hvalue
  refine Option.isSome_iff_exists.mpr ⟨value, Option.filter_eq_some_iff.mpr ⟨hread, ?_⟩⟩
  simp only [decide_eq_true_eq] at hlt ⊢
  omega

theorem readSeparator_takes {α : Type} {inner : Reader α} {P : Str → Prop} (hinner : inner.Takes P)
    (separator : Char) (first : Bool) :
    (readSeparator separator first inner).Takes fun used =>
      ∃ item, P item ∧ used = if first then item else separator :: item := by
  intro s a rest h
  cases first with
  | true =>
    have hread : inner s = some (a, rest) := by
      cases s <;> simpa [readSeparator] using h
    obtain ⟨used, hs, hused⟩ := hinner s a rest hread
    exact ⟨used, hs, used, hused, rfl⟩
  | false =>
    cases s with
    | nil => simp [readSeparator] at h
    | cons c s =>
      by_cases hc : c = separator
      · have hread : inner s = some (a, rest) := by simpa [readSeparator, hc] using h
        obtain ⟨used, hs, hused⟩ := hinner s a rest hread
        exact ⟨separator :: used, by simp [hs, hc], used, hused, rfl⟩
      · simp [readSeparator, hc] at h

theorem readIpv4Addr_takes :
    readIpv4Addr.Takes fun used => AddressText used ∧ used ≠ [] ∧ ':' ∉ used := by
  intro s ip rest h
  have hoctet : ∀ first, (readSeparator '.' first readOctet).Takes fun used =>
      ∃ item, Digits item ∧ used = if first then item else '.' :: item :=
    readSeparator_takes (readNumber_takes (by decide)) '.'
  simp only [readIpv4Addr, Option.bind_eq_bind, Option.bind_eq_some_iff] at h
  obtain ⟨⟨a, s₁⟩, ha, ⟨b, s₂⟩, hb, ⟨c, s₃⟩, hc, ⟨d, s₄⟩, hd, -, rfl⟩ := h
  obtain ⟨u₁, rfl, _, hu₁, rfl⟩ := hoctet _ _ _ _ ha
  obtain ⟨-, rfl, u₂, hu₂, rfl⟩ := hoctet _ _ _ _ hb
  obtain ⟨-, rfl, u₃, hu₃, rfl⟩ := hoctet _ _ _ _ hc
  obtain ⟨-, rfl, u₄, hu₄, rfl⟩ := hoctet _ _ _ _ hd
  refine ⟨u₁ ++ ('.' :: u₂ ++ ('.' :: u₃ ++ '.' :: u₄)), by simp, ?_, by simp, ?_⟩
  · have hdot : ∀ {u}, Digits u → AddressText ('.' :: u) := fun hu =>
      .cons (by decide) hu.addressText hu.1
    exact hu₁.addressText.append ((hdot hu₂).append ((hdot hu₃).append (hdot hu₄)))
  · have hcolon : toDigit 16 ':' = none := by decide
    simp [hu₁.notMem hcolon, hu₂.notMem hcolon, hu₃.notMem hcolon, hu₄.notMem hcolon]

/-- An item behind a colon, but for the first one. -/
theorem addressText_item {item used : Str} {first : Bool} (hitem : AddressText item)
    (hne : item ≠ []) (hused : used = if first then item else ':' :: item) :
    AddressText used ∧ (if first then 0 else 1) ≤ used.count ':' := by
  cases first with
  | true => exact ⟨hused ▸ hitem, Nat.zero_le _⟩
  | false =>
    subst hused
    exact ⟨hitem.cons (by decide) hne, by simp⟩

/-- Every group but the first, and the embedded address, follow a colon. -/
theorem readGroups_takes (left : ℕ) (first : Bool) (s : Str) :
    ∃ used, s = used ++ (readGroups left first s).2.2 ∧ AddressText used ∧
      (readGroups left first s).1.length ≤ used.count ':' + (if first then 2 else 1) := by
  have hnil : AddressText [] := ⟨by simp [IpText], by simp⟩
  induction left generalizing first s with
  | zero => exact ⟨[], by simp [readGroups], hnil, by simp [readGroups]⟩
  | succ left ih =>
    rw [readGroups]
    cases hipv4 : (if 0 < left then readSeparator ':' first readIpv4Addr s else none) with
    | some read =>
      obtain ⟨ip, rest⟩ := read
      split_ifs at hipv4
      obtain ⟨used, hs, item, ⟨hitem, hne, -⟩, hused⟩ :=
        readSeparator_takes readIpv4Addr_takes ':' first s ip rest hipv4
      obtain ⟨htext, hcount⟩ := addressText_item hitem hne hused
      refine ⟨used, hs, htext, ?_⟩
      cases first with
      | true => simp
      | false => simpa using hcount
    | none =>
      cases hgroup : readSeparator ':' first (readNumber 16 4 65536 true) s with
      | none => exact ⟨[], by simp, hnil, by simp⟩
      | some read =>
        obtain ⟨group, rest⟩ := read
        obtain ⟨used, hs, item, hitem, hused⟩ :=
          readSeparator_takes (readNumber_takes le_rfl) ':' first s group rest hgroup
        obtain ⟨htext, hcount⟩ := addressText_item hitem.addressText hitem.1 hused
        obtain ⟨used', hs', htext', hcount'⟩ := ih false rest
        refine ⟨used ++ used', by rw [hs, List.append_assoc, ← hs'], htext.append htext', ?_⟩
        simp only [length_cons, count_append]
        simp only [Bool.false_eq_true, if_false] at hcount'
        cases first with
        | true =>
          simp only [if_true]
          omega
        | false =>
          simp only [Bool.false_eq_true, if_false] at hcount ⊢
          omega

theorem readIpv6Addr_takes :
    readIpv6Addr.Takes fun used => AddressText used ∧ 2 ≤ used.count ':' := by
  intro s ip rest h
  obtain ⟨used, hs, hused, hcount⟩ := readGroups_takes 8 true s
  simp only [readIpv6Addr] at h
  split_ifs at h with hlength
  · cases h
    refine ⟨used, hs, hused, ?_⟩
    simp only [if_true] at hcount
    omega
  · split at h
    · next rest' hrest =>
        cases h
        obtain ⟨used', hs', hused', -⟩ :=
          readGroups_takes (7 - (readGroups 8 true s).1.length) true rest'
        have hcolons : AddressText [':', ':'] := ⟨by simp [IpText, isIpChar], by simp⟩
        refine ⟨used ++ [':', ':'] ++ used', ?_, (hused.append hcolons).append hused', ?_⟩
        swap
        · have htwo : [':', ':'].count ':' = 2 := rfl
          simp only [count_append]
          omega
        rw [List.append_assoc, ← hs', List.append_assoc, cons_append, cons_append,
          nil_append, ← hrest]
        exact hs
    · simp at h

theorem parseWith_eq_some {α : Type} {reader : Reader α} {P : Str → Prop} (hreader : reader.Takes P)
    {s : Str} {a : α} (h : parseWith reader s = some a) : P s := by
  unfold parseWith at h
  split at h
  · next a' hread =>
      obtain ⟨used, hs, hused⟩ := hreader s a' [] hread
      rwa [hs, append_nil]
  · simp at h

/-- A single colon is not part of an address. -/
theorem addressText_of_parseIpAddr {s : Str} {ip : IpAddr} (h : parseIpAddr s = some ip) :
    AddressText s ∧ s.count ':' ≠ 1 := by
  refine parseWith_eq_some (P := fun s => AddressText s ∧ s.count ':' ≠ 1) ?_ h
  intro s ip rest hread
  cases hipv4 : readIpv4Addr s with
  | none =>
    simp only [hipv4, Option.map_none, Option.orElse_eq_orElse, Option.orElse_none,
      Option.map_eq_some_iff, Prod.mk.injEq, Prod.exists] at hread
    obtain ⟨ip6, rest6, hread6, -, rfl⟩ := hread
    obtain ⟨used, hs, hused, hcount⟩ := readIpv6Addr_takes s ip6 rest6 hread6
    exact ⟨used, hs, hused, by omega⟩
  | some read =>
    simp only [hipv4] at hread
    obtain ⟨-, rfl⟩ := hread
    obtain ⟨used, hs, hused, -, hcolon⟩ := readIpv4Addr_takes s read.1 read.2 hipv4
    exact ⟨used, hs, hused, by simp [count_eq_zero.mpr hcolon]⟩

theorem ipText_of_parseIpAddr {s : Str} {ip : IpAddr} (h : parseIpAddr s = some ip) : IpText s :=
  (addressText_of_parseIpAddr h).1.chars

/-! ## The spelling of an IPv4 address -/

def digitChar (n : ℕ) : Char := .ofNat (48 + n)

def octetText (n : ℕ) : Str :=
  if n < 10 then [digitChar n]
  else if n < 100 then [digitChar (n / 10), digitChar (n % 10)]
  else [digitChar (n / 100), digitChar (n / 10 % 10), digitChar (n % 10)]

def Ipv4Addr.text (ip : Ipv4Addr) : Str :=
  octetText ip.a.toNat ++ '.' :: octetText ip.b.toNat ++ '.' :: octetText ip.c.toNat ++
    '.' :: octetText ip.d.toNat

theorem toDigit_ten {c : Char} (h : (toDigit 10 c).isSome = true) :
    ∃ n < 10, toDigit 10 c = some n ∧ c = digitChar n := by
  obtain ⟨n, hn⟩ := Option.isSome_iff_exists.mp h
  obtain ⟨hread, hlt⟩ := Option.filter_eq_some_iff.mp hn
  have hlt : n < 10 := by simpa using hlt
  refine ⟨n, hlt, hn, ?_⟩
  have hle : ∀ {a b : Char}, a ≤ b → a.toNat ≤ b.toNat := fun hab => hab
  have hcode : c.toNat = 48 + n := by
    split_ifs at hread with hnumeral hlower hupper
    · have : 48 ≤ c.toNat := hle hnumeral.1
      have := Option.some.inj hread
      omega
    · have : 97 ≤ c.toNat := hle hlower.1
      have := Option.some.inj hread
      omega
    · have : 65 ≤ c.toNat := hle hupper.1
      have := Option.some.inj hread
      omega
  rw [digitChar, ← hcode, Char.ofNat_toNat]

/-- An octet has one spelling. -/
theorem readOctet_eq {s rest : Str} {n : ℕ} (h : readOctet s = some (n, rest)) :
    n < 256 ∧ s = octetText n ++ rest := by
  have hall : ∀ c ∈ s.takeWhile fun c => (toDigit 10 c).isSome, (toDigit 10 c).isSome = true :=
    all_eq_true.mp all_takeWhile
  have hs := (takeWhile_append_dropWhile (p := fun c => (toDigit 10 c).isSome) (l := s)).symm
  simp only [readOctet, readNumber] at h
  split_ifs at h with hlength hzero hvalue
  simp only [Option.some.injEq, Prod.mk.injEq] at h
  rw [h.2] at hs
  generalize s.takeWhile (fun c => (toDigit 10 c).isSome) = digits at *
  obtain ⟨rfl, -⟩ := h
  refine ⟨hvalue, hs.trans (congrArg (· ++ rest) ?_)⟩
  rcases digits with _ | ⟨a, _ | ⟨b, _ | ⟨c, _ | ⟨d, digits⟩⟩⟩⟩
  · simp at hlength
  · obtain ⟨x, hx, hread, rfl⟩ := toDigit_ten (hall a (by simp))
    simp [hread, octetText, hx]
  · obtain ⟨x, hx, hread, rfl⟩ := toDigit_ten (hall a (by simp))
    obtain ⟨y, hy, hread', rfl⟩ := toDigit_ten (hall b (by simp))
    have hne : x ≠ 0 := fun hx => hzero ⟨not_false, congrArg (some ∘ digitChar) hx, by simp⟩
    have htens : (x * 10 + y) / 10 = x ∧ (x * 10 + y) % 10 = y := by omega
    have hrange : ¬ x * 10 + y < 10 ∧ x * 10 + y < 100 := by omega
    simp [hread, hread', octetText, hrange, htens]
  · obtain ⟨x, hx, hread, rfl⟩ := toDigit_ten (hall a (by simp))
    obtain ⟨y, hy, hread', rfl⟩ := toDigit_ten (hall b (by simp))
    obtain ⟨z, hz, hread'', rfl⟩ := toDigit_ten (hall c (by simp))
    have hne : x ≠ 0 := fun hx => hzero ⟨not_false, congrArg (some ∘ digitChar) hx, by simp⟩
    have htens : ((x * 10 + y) * 10 + z) / 100 = x ∧ ((x * 10 + y) * 10 + z) / 10 % 10 = y ∧
        ((x * 10 + y) * 10 + z) % 10 = z := by omega
    have hrange : ¬ (x * 10 + y) * 10 + z < 10 ∧ ¬ (x * 10 + y) * 10 + z < 100 := by omega
    simp [hread, hread', hread'', octetText, hrange, htens]
  · simp at hlength

/-- An IPv4 address has one spelling. -/
theorem eq_text_of_parseIpAddr {s : Str} {ip : Ipv4Addr} (h : parseIpAddr s = some (.v4 ip)) :
    s = ip.text := by
  have hdot : ∀ {s rest n}, readSeparator '.' false readOctet s = some (n, rest) →
      n < 256 ∧ s = '.' :: octetText n ++ rest := by
    intro s rest n h
    cases s with
    | nil => simp [readSeparator] at h
    | cons c s =>
      simp only [readSeparator, Bool.false_eq_true, if_false] at h
      split_ifs at h with hc
      obtain ⟨hn, rfl⟩ := readOctet_eq h
      exact ⟨hn, by rw [hc]; rfl⟩
  have hread : readIpv4Addr s = some (ip, []) := by
    unfold parseIpAddr parseWith at h
    split at h
    · next hparsed =>
        cases h
        cases hipv4 : readIpv4Addr s with
        | none => simp [hipv4] at hparsed
        | some read => simpa [hipv4, Prod.ext_iff] using hparsed
    · cases h
  simp only [readIpv4Addr, Option.bind_eq_bind, Option.bind_eq_some_iff] at hread
  obtain ⟨⟨a, s₁⟩, ha, ⟨b, s₂⟩, hb, ⟨c, s₃⟩, hc, ⟨d, s₄⟩, hd, heq⟩ := hread
  cases heq
  have hfirst : readOctet s = some (a, s₁) := by cases s <;> simpa [readSeparator] using ha
  obtain ⟨hlt₁, rfl⟩ := readOctet_eq hfirst
  obtain ⟨hlt₂, rfl⟩ := hdot hb
  obtain ⟨hlt₃, rfl⟩ := hdot hc
  obtain ⟨hlt₄, rfl⟩ := hdot hd
  simp [Ipv4Addr.text, Nat.mod_eq_of_lt hlt₁, Nat.mod_eq_of_lt hlt₂, Nat.mod_eq_of_lt hlt₃,
    Nat.mod_eq_of_lt hlt₄]

example : (parseIpAddr "::ffff:127.0.0.1".toList).map isNonPublicIp = some true := by decide

end Codex.NetworkProxy
