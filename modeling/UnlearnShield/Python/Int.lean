import UnlearnShield.Python.Bytes

/-! # `int(text)`

Reading a decimal integer as CPython does: every Unicode decimal digit counts, one
underscore may separate two digits, whitespace may surround the number, and a
text of more than 4300 digits is refused.
-/
namespace UnlearnShield.PyInt

/-- The zero of every block of ten decimal digits (Unicode 14, category Nd). -/
def digitZeros : List ℕ := [
  0x30, 0x660, 0x6f0, 0x7c0, 0x966, 0x9e6, 0xa66, 0xae6, 0xb66, 0xbe6, 0xc66, 0xce6, 0xd66, 0xde6,
  0xe50, 0xed0, 0xf20, 0x1040, 0x1090, 0x17e0, 0x1810, 0x1946, 0x19d0, 0x1a80, 0x1a90, 0x1b50,
  0x1bb0, 0x1c40, 0x1c50, 0xa620, 0xa8d0, 0xa900, 0xa9d0, 0xa9f0, 0xaa50, 0xabf0, 0xff10, 0x104a0,
  0x10d30, 0x11066, 0x110f0, 0x11136, 0x111d0, 0x112f0, 0x11450, 0x114d0, 0x11650, 0x116c0,
  0x11730, 0x118e0, 0x11950, 0x11c50, 0x11d50, 0x11da0, 0x16a60, 0x16ac0, 0x16b50, 0x1d7ce,
  0x1d7d8, 0x1d7e2, 0x1d7ec, 0x1d7f6, 0x1e140, 0x1e2f0, 0x1e950, 0x1fbf0]

def wideSpace (n : ℕ) : Bool :=
  n ∈ [0x85, 0xa0, 0x1680, 0x2028, 0x2029, 0x202f, 0x205f, 0x3000] || (0x2000 ≤ n && n ≤ 0x200a)

/-- Wide digits and spaces become their ASCII forms; other wide characters are refused. -/
def toAscii (c : Char) : Option Char :=
  if c.toNat < 127 then some c
  else if wideSpace c.toNat then some ' '
  else (digitZeros.find? fun z => z ≤ c.toNat ∧ c.toNat < z + 10).map fun z =>
    Char.ofNat (48 + (c.toNat - z))

/-- Digits, with single underscores allowed between two of them. -/
def readDigits : List Char → Option (List ℕ)
  | [] => none
  | [c] => if c.isDigit then some [c.toNat - 48] else none
  | c :: c' :: rest =>
    if c.isDigit then
      (if c' = '_' then readDigits rest else readDigits (c' :: rest)).map ((c.toNat - 48) :: ·)
    else none

def value (ds : List ℕ) : ℕ := ds.foldl (fun n d => 10 * n + d) 0

def maxDigits : ℕ := 4300

def stripSpaces (cs : List Char) : List Char :=
  ((cs.dropWhile Bytes.asciiSpace).reverse.dropWhile Bytes.asciiSpace).reverse

def readUnsigned (cs : List Char) : Option ℕ :=
  (readDigits cs).bind fun ds => if ds.length ≤ maxDigits then some (value ds) else none

def readSigned : List Char → Option ℤ
  | '-' :: rest => (readUnsigned rest).map fun n => -(n : ℤ)
  | '+' :: rest => (readUnsigned rest).map fun n => (n : ℤ)
  | cs => (readUnsigned cs).map fun n => (n : ℤ)

/-- `int(s)`; `none` is the `ValueError`. -/
def ofString (s : String) : Option ℤ :=
  (s.toList.mapM toAscii).bind fun cs => readSigned (stripSpaces cs)

example : ofString " 1_0\n" = some 10 := by decide
example : ofString "1__0" = none := by decide

theorem isDigit_range {c : Char} (h : c.isDigit = true) : 48 ≤ c.toNat ∧ c.toNat ≤ 57 := by
  simpa [Char.isDigit, Char.le_def, UInt32.le_iff_toNat_le] using h

theorem readDigits_digits {cs : List Char} (hne : cs ≠ []) (h : ∀ c ∈ cs, c.isDigit = true) :
    readDigits cs = some (cs.map fun c => c.toNat - 48) := by
  induction cs with
  | nil => exact absurd rfl hne
  | cons c cs ih =>
    have hc := h c List.mem_cons_self
    cases cs with
    | nil => simp [readDigits, hc]
    | cons c' rest =>
      have hc' : c' ≠ '_' := by
        rintro rfl
        simpa using h '_' (by simp)
      rw [readDigits, if_pos hc, if_neg hc', ih (by simp) fun x hx => h x (List.mem_cons_of_mem c hx)]
      rfl

theorem not_asciiSpace_of_isDigit {c : Char} (h : c.isDigit = true) : Bytes.asciiSpace c = false := by
  have hr := isDigit_range h
  rw [Bool.eq_false_iff]
  intro hs
  simp only [Bytes.asciiSpace, decide_eq_true_eq, List.mem_cons, List.not_mem_nil, or_false] at hs
  rcases hs with rfl | rfl | rfl | rfl | rfl | rfl <;> simp at hr

theorem stripSpaces_digits {cs : List Char} (h : ∀ c ∈ cs, c.isDigit = true) : stripSpaces cs = cs := by
  have hd : ∀ l : List Char, (∀ c ∈ l, c.isDigit = true) → l.dropWhile Bytes.asciiSpace = l := by
    intro l hl
    cases l with
    | nil => rfl
    | cons c l => simp [not_asciiSpace_of_isDigit (hl c List.mem_cons_self)]
  rw [stripSpaces, hd cs h, hd cs.reverse (by simpa using h), List.reverse_reverse]

theorem readSigned_digits {cs : List Char} (h : ∀ c ∈ cs, c.isDigit = true) :
    readSigned cs = (readUnsigned cs).map fun n => (n : ℤ) := by
  cases cs with
  | nil => rfl
  | cons c cs =>
    have hr := isDigit_range (h c List.mem_cons_self)
    unfold readSigned
    split
    · next heq => obtain ⟨rfl,-⟩ := List.cons.inj heq; simp at hr
    · next heq => obtain ⟨rfl,-⟩ := List.cons.inj heq; simp at hr
    · rfl

theorem mapM_toAscii_digits {cs : List Char} (h : ∀ c ∈ cs, c.isDigit = true) :
    cs.mapM toAscii = some cs := by
  induction cs with
  | nil => rfl
  | cons c cs ih =>
    have hr := isDigit_range (h c List.mem_cons_self)
    have hc : toAscii c = some c := by
      rw [toAscii, if_pos (by omega)]
    rw [List.mapM_cons, hc, ih fun x hx => h x (List.mem_cons_of_mem c hx)]
    rfl

/-- `int(str(n)) == n` while the text stays within the digit limit. -/
theorem ofString_toString {n : ℕ} (h : n < 10 ^ maxDigits) : ofString (toString n) = some (n : ℤ) := by
  have hd : ∀ c ∈ Nat.toDigits 10 n, c.isDigit = true :=
    fun c hc => Nat.isDigit_of_mem_toDigits (by decide) le_rfl hc
  have hl : (Nat.toDigits 10 n).length ≤ maxDigits :=
    (Nat.length_toDigits_le_iff (by decide) (by decide)).mpr h
  have hv : value ((Nat.toDigits 10 n).map fun c => c.toNat - 48) = n := by
    rw [value, List.foldl_map]
    exact (Nat.ofDigitChars_eq_foldl).symm.trans Nat.ofDigitChars_ten_toDigits
  rw [ofString, Nat.toString_eq_ofList_toDigits, String.toList_ofList, mapM_toAscii_digits hd,
    Option.bind_some, stripSpaces_digits hd, readSigned_digits hd, readUnsigned,
    readDigits_digits Nat.toDigits_ne_nil hd, Option.bind_some, List.length_map, if_pos hl, hv]
  rfl

end UnlearnShield.PyInt
