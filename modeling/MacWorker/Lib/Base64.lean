import Mathlib.Data.UInt

/-! # Base64

The standard alphabet with padding. Three bytes are four digits; a last group of
one or two bytes is padded, and the bits that the padding leaves over are zero.
The reader refuses every other text, so that it accepts one text for each list of
bytes. -/
namespace Base64

def digit (n : Nat) : Char :=
  if n < 26 then Char.ofNat (65 + n)
  else if n < 52 then Char.ofNat (71 + n)
  else if n < 62 then Char.ofNat (n - 4)
  else if n = 62 then '+'
  else '/'

def digitValue (c : Char) : Option Nat :=
  if 65 ≤ c.toNat ∧ c.toNat ≤ 90 then some (c.toNat - 65)
  else if 97 ≤ c.toNat ∧ c.toNat ≤ 122 then some (c.toNat - 71)
  else if 48 ≤ c.toNat ∧ c.toNat ≤ 57 then some (c.toNat + 4)
  else if c = '+' then some 62
  else if c = '/' then some 63
  else none

def encodeChars : List UInt8 → List Char
  | [] => []
  | [a] => [digit (a.toNat / 4), digit (a.toNat % 4 * 16), '=', '=']
  | [a, b] =>
    [digit (a.toNat / 4), digit (a.toNat % 4 * 16 + b.toNat / 16), digit (b.toNat % 16 * 4), '=']
  | a :: b :: c :: rest =>
    digit (a.toNat / 4) :: digit (a.toNat % 4 * 16 + b.toNat / 16) ::
      digit (b.toNat % 16 * 4 + c.toNat / 64) :: digit (c.toNat % 64) :: encodeChars rest

def decodeChars : List Char → Option (List UInt8)
  | [] => some []
  | [p, q, '=', '='] => do
    let x ← digitValue p
    let y ← digitValue q
    if y % 16 = 0 then some [UInt8.ofNat (x * 4 + y / 16)] else none
  | [p, q, r, '='] => do
    let x ← digitValue p
    let y ← digitValue q
    let z ← digitValue r
    if z % 4 = 0 then some [UInt8.ofNat (x * 4 + y / 16), UInt8.ofNat (y % 16 * 16 + z / 4)]
    else none
  | p :: q :: r :: s :: rest => do
    let x ← digitValue p
    let y ← digitValue q
    let z ← digitValue r
    let w ← digitValue s
    let bytes ← decodeChars rest
    some (UInt8.ofNat (x * 4 + y / 16) :: UInt8.ofNat (y % 16 * 16 + z / 4) ::
      UInt8.ofNat (z % 4 * 64 + w) :: bytes)
  | _ => none

def encode (bytes : List UInt8) : String := String.ofList (encodeChars bytes)

def decode (text : String) : Option (List UInt8) := decodeChars text.toList

theorem digitValue_digit : ∀ n < 64, digitValue (digit n) = some n := by decide

theorem digit_ne_padding : ∀ n < 64, digit n ≠ '=' := by decide

theorem ofNat_of_eq {n a} (h : n = a.toNat) : UInt8.ofNat n = a := by
  rw [h]
  exact UInt8.ofNat_toNat

theorem decodeChars_encodeChars (bytes : List UInt8) :
    decodeChars (encodeChars bytes) = some bytes := by
  fun_induction encodeChars bytes with
  | case1 => rfl
  | case2 a =>
    have ha := a.toNat_lt
    have hx := digitValue_digit (a.toNat / 4) (by omega)
    have hy := digitValue_digit (a.toNat % 4 * 16) (by omega)
    have hby : UInt8.ofNat (a.toNat / 4 * 4 + a.toNat % 4 * 16 / 16) = a := ofNat_of_eq (by omega)
    simp only [decodeChars, hx, hy, Option.bind_eq_bind, Option.bind_some, hby]
    rw [if_pos (by omega)]
  | case3 a b =>
    have ha := a.toNat_lt
    have hb := b.toNat_lt
    have hx := digitValue_digit (a.toNat / 4) (by omega)
    have hy := digitValue_digit (a.toNat % 4 * 16 + b.toNat / 16) (by omega)
    have hz := digitValue_digit (b.toNat % 16 * 4) (by omega)
    have hne := digit_ne_padding (b.toNat % 16 * 4) (by omega)
    have hf : UInt8.ofNat (a.toNat / 4 * 4 + (a.toNat % 4 * 16 + b.toNat / 16) / 16) = a :=
      ofNat_of_eq (by omega)
    have hs : UInt8.ofNat ((a.toNat % 4 * 16 + b.toNat / 16) % 16 * 16 +
        b.toNat % 16 * 4 / 4) = b := ofNat_of_eq (by omega)
    rw [decodeChars]
    · simp only [hx, hy, hz, Option.bind_eq_bind, Option.bind_some, hf, hs]
      rw [if_pos (by omega)]
    · exact hne
  | case4 a b c rest ih =>
    have ha := a.toNat_lt
    have hb := b.toNat_lt
    have hc := c.toNat_lt
    have hx := digitValue_digit (a.toNat / 4) (by omega)
    have hy := digitValue_digit (a.toNat % 4 * 16 + b.toNat / 16) (by omega)
    have hz := digitValue_digit (b.toNat % 16 * 4 + c.toNat / 64) (by omega)
    have hw := digitValue_digit (c.toNat % 64) (by omega)
    have hf : UInt8.ofNat (a.toNat / 4 * 4 + (a.toNat % 4 * 16 + b.toNat / 16) / 16) = a :=
      ofNat_of_eq (by omega)
    have hs : UInt8.ofNat ((a.toNat % 4 * 16 + b.toNat / 16) % 16 * 16 +
        (b.toNat % 16 * 4 + c.toNat / 64) / 4) = b := ofNat_of_eq (by omega)
    have ht : UInt8.ofNat ((b.toNat % 16 * 4 + c.toNat / 64) % 4 * 64 + c.toNat % 64) = c :=
      ofNat_of_eq (by omega)
    rw [decodeChars]
    · simp only [hx, hy, hz, hw, ih, Option.bind_eq_bind, Option.bind_some, hf, hs, ht]
    · exact fun h => absurd h (digit_ne_padding _ (by omega))
    · exact fun h => absurd h (digit_ne_padding _ (by omega))

theorem decode_encode (bytes : List UInt8) : decode (encode bytes) = some bytes := by
  rw [decode, encode, String.toList_ofList]
  exact decodeChars_encodeChars bytes

end Base64
