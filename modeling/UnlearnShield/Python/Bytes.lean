import Mathlib

/-! # Byte strings and their hexadecimal text

`hex` and `fromhex` follow `bytes.hex` and `bytes.fromhex`: lower-case output,
either case on input, and ASCII whitespace allowed between two bytes but not
inside one. A subject reference is the 32 bytes behind an HMAC-SHA256 hexdigest.
-/
namespace UnlearnShield

abbrev Bytes := List UInt8

/-- `bytes.fromhex(subject_ref)` for a reference produced by `settings.subject_ref`. -/
abbrev Ref := {b : Bytes // b.length = 32}

instance : LawfulBEq Ref := inferInstance

namespace Bytes

def hexChars (b : Bytes) : List Char :=
  b.flatMap fun x => [Nat.digitChar (x.toNat / 16), Nat.digitChar (x.toNat % 16)]

def hex (b : Bytes) : String := String.ofList b.hexChars

def hexValue (c : Char) : Option ℕ :=
  if '0' ≤ c ∧ c ≤ '9' then some (c.toNat - 48)
  else if 'a' ≤ c ∧ c ≤ 'f' then some (c.toNat - 87)
  else if 'A' ≤ c ∧ c ≤ 'F' then some (c.toNat - 55)
  else none

def asciiSpace (c : Char) : Bool := c ∈ [' ', '\t', '\n', '\x0b', '\x0c', '\r']

def fromhexChars : List Char → Option Bytes
  | [] => some []
  | [c] => if asciiSpace c then some [] else none
  | c :: c' :: rest =>
    if asciiSpace c then fromhexChars (c' :: rest)
    else match hexValue c, hexValue c' with
      | some hi, some lo => (fromhexChars rest).map fun b => UInt8.ofNat (16 * hi + lo) :: b
      | _, _ => none

def fromhex (s : String) : Option Bytes := fromhexChars s.toList

theorem hexValue_digitChar {n : ℕ} (h : n < 16) : hexValue (Nat.digitChar n) = some n := by
  interval_cases n <;> decide

theorem asciiSpace_digitChar {n : ℕ} (h : n < 16) : asciiSpace (Nat.digitChar n) = false := by
  interval_cases n <;> decide

@[simp] theorem fromhexChars_hexChars (b : Bytes) : fromhexChars b.hexChars = some b := by
  induction b with
  | nil => rfl
  | cons x b ih =>
    have hx := x.toNat_lt
    have hhi : x.toNat / 16 < 16 := by omega
    have hlo : x.toNat % 16 < 16 := by omega
    have he : hexChars (x :: b) =
        Nat.digitChar (x.toNat / 16) :: Nat.digitChar (x.toNat % 16) :: hexChars b := by
      simp [hexChars]
    rw [he, fromhexChars, asciiSpace_digitChar hhi, hexValue_digitChar hhi, hexValue_digitChar hlo]
    have hd : 16 * (x.toNat / 16) + x.toNat % 16 = x.toNat := by omega
    simp only [Bool.false_eq_true, ↓reduceIte, ih, hd, Option.map_some, UInt8.ofNat_toNat]

/-- `bytes.fromhex(b.hex()) == b`. -/
@[simp] theorem fromhex_hex (b : Bytes) : fromhex b.hex = some b := by
  simp [fromhex, hex]

theorem hex_injective : Function.Injective hex := by
  intro a b h
  have ha := fromhex_hex a
  rw [h, fromhex_hex] at ha
  exact (Option.some.inj ha).symm

@[simp] theorem hex_inj {a b : Bytes} : a.hex = b.hex ↔ a = b := hex_injective.eq_iff

theorem length_hexChars (b : Bytes) : b.hexChars.length = 2 * b.length := by
  induction b with
  | nil => rfl
  | cons x b ih =>
    simp only [hexChars, List.flatMap_cons, List.length_append, List.length_cons, List.length_nil] at ih ⊢
    omega

end Bytes

/-- `ref[:12]`, as error messages show a reference. -/
def Ref.short (r : Ref) : String := String.ofList (r.val.hexChars.take 12)

end UnlearnShield
