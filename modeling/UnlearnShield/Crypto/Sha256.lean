import UnlearnShield.Python.Bytes

/-! # SHA-256

`hashlib.sha256(data).digest()`, over natural numbers: a message, a block and a
chaining value are the numbers their bytes spell, big end first. Additions are
reduced modulo `2^32` only where a word is stored, and a word is rotated by
shifting two copies of it, so the digest of a short chain can be evaluated inside
a proof.
-/
namespace UnlearnShield

/-- The 32 bytes of a hash value. -/
abbrev Digest := {b : Bytes // b.length = 32}

namespace Bytes

/-- `int.from_bytes(b, "big")`. -/
def toNat (b : Bytes) : ℕ := b.foldl (fun n x => 256 * n + x.toNat) 0

/-- `n.to_bytes(length, "big")` of the low bytes of `n`. -/
def ofNat : ℕ → ℕ → Bytes
  | 0, _ => []
  | length + 1, n => ofNat length (n / 256) ++ [UInt8.ofNat n]

@[simp] theorem length_ofNat (length n : ℕ) : (ofNat length n).length = length := by
  induction length generalizing n with
  | zero => rfl
  | succ length ih => simp [ofNat, ih]

@[simp] theorem toNat_nil : toNat [] = 0 := rfl

theorem toNat_concat (b : Bytes) (x : UInt8) : toNat (b ++ [x]) = 256 * toNat b + x.toNat := by
  simp [toNat]

theorem toNat_append (a b : Bytes) : toNat (a ++ b) = toNat a * 256 ^ b.length + toNat b := by
  induction b using List.reverseRecOn with
  | nil => simp
  | append_singleton b x ih =>
    rw [← List.append_assoc, toNat_concat, toNat_concat, ih, List.length_append, List.length_singleton,
      pow_succ]
    ring

theorem toNat_ofNat (length n : ℕ) : toNat (ofNat length n) = n % 256 ^ length := by
  induction length generalizing n with
  | zero => simp [ofNat, Nat.mod_one]
  | succ length ih =>
    have hx : (UInt8.ofNat n).toNat = n % 256 := UInt8.toNat_ofNat'
    rw [ofNat, toNat_concat, ih, hx, pow_succ, Nat.mul_comm (256 ^ length), Nat.mod_mul]
    omega

/-- Byte strings of one length are told apart by the numbers they spell. -/
theorem eq_of_toNat_eq {a b : Bytes} (hl : a.length = b.length) (h : toNat a = toNat b) : a = b := by
  induction a using List.reverseRecOn generalizing b with
  | nil => exact (List.length_eq_zero_iff.mp hl.symm).symm
  | append_singleton a x ih =>
    rcases List.eq_nil_or_concat b with rfl | ⟨b,y,rfl⟩
    · simp at hl
    rw [List.concat_eq_append] at hl h ⊢
    rw [toNat_concat, toNat_concat] at h
    have hx := x.toNat_lt
    have hy := y.toNat_lt
    have hxy : x = y := UInt8.toNat_inj.mp (by omega)
    have hab : a = b := ih (by simpa using hl) (by omega)
    rw [hxy, hab]

end Bytes

namespace Sha256

def withNat {α : Type} (n : ℕ) (next : ℕ → α) : α := n.casesOn (next 0) fun m => next m.succ

theorem withNat_eq {α : Type} (n : ℕ) (next : ℕ → α) : withNat n next = next n := by
  cases n <;> rfl

def roundConstants : List ℕ := [
  0x428a2f98, 0x71374491, 0xb5c0fbcf, 0xe9b5dba5, 0x3956c25b, 0x59f111f1, 0x923f82a4, 0xab1c5ed5,
  0xd807aa98, 0x12835b01, 0x243185be, 0x550c7dc3, 0x72be5d74, 0x80deb1fe, 0x9bdc06a7, 0xc19bf174,
  0xe49b69c1, 0xefbe4786, 0x0fc19dc6, 0x240ca1cc, 0x2de92c6f, 0x4a7484aa, 0x5cb0a9dc, 0x76f988da,
  0x983e5152, 0xa831c66d, 0xb00327c8, 0xbf597fc7, 0xc6e00bf3, 0xd5a79147, 0x06ca6351, 0x14292967,
  0x27b70a85, 0x2e1b2138, 0x4d2c6dfc, 0x53380d13, 0x650a7354, 0x766a0abb, 0x81c2c92e, 0x92722c85,
  0xa2bfe8a1, 0xa81a664b, 0xc24b8b70, 0xc76c51a3, 0xd192e819, 0xd6990624, 0xf40e3585, 0x106aa070,
  0x19a4c116, 0x1e376c08, 0x2748774c, 0x34b0bcb5, 0x391c0cb3, 0x4ed8aa4a, 0x5b9cca4f, 0x682e6ff3,
  0x748f82ee, 0x78a5636f, 0x84c87814, 0x8cc70208, 0x90befffa, 0xa4506ceb, 0xbef9a3f7, 0xc67178f2]

/-- The square roots of the first eight primes, as one chaining value. -/
def initial : ℕ := 0x6a09e667bb67ae853c6ef372a54ff53a510e527f9b05688c1f83d9ab5be0cd19

/-- The 32-bit word of `x` with `i` words below it. -/
def word (x i : ℕ) : ℕ := (x.shiftRight (Nat.mul 32 i)).mod 0x100000000

def twice (x : ℕ) : ℕ := x.mul 0x100000001

/-- Rotations by `i`, `j` and `k`, above the word also their overflow. -/
def bigSigma (i j k x : ℕ) : ℕ :=
  (((twice x).shiftRight i).xor ((twice x).shiftRight j)).xor ((twice x).shiftRight k)

/-- Rotations by `i` and `j` and a shift by `k`, above the word also their overflow. -/
def smallSigma (i j k x : ℕ) : ℕ :=
  (((twice x).shiftRight i).xor ((twice x).shiftRight j)).xor (x.shiftRight k)

def ch (x y z : ℕ) : ℕ := z.xor (x.land (y.xor z))
def maj (x y z : ℕ) : ℕ := (x.land y).lor (z.land (x.lor y))

/-- One round for every constant, over the next sixteen words of the message schedule
and the eight working variables, which come back as one chaining value. -/
def rounds : List ℕ → ℕ → ℕ → ℕ → ℕ → ℕ → ℕ → ℕ → ℕ → ℕ → ℕ → ℕ → ℕ → ℕ → ℕ → ℕ → ℕ →
    ℕ → ℕ → ℕ → ℕ → ℕ → ℕ → ℕ → ℕ → ℕ
  | [], _, _, _, _, _, _, _, _, _, _, _, _, _, _, _, _, a, b, c, d, e, f, g, h =>
    [a, b, c, d, e, f, g, h].foldl (fun x w => x * 0x100000000 + w) 0
  | k :: ks, w0, w1, w2, w3, w4, w5, w6, w7, w8, w9, w10, w11, w12, w13, w14, w15,
      a, b, c, d, e, f, g, h =>
    withNat ((h.add (bigSigma 6 11 25 e)).add ((ch e f g).add (k.add w0))) fun t =>
    withNat ((t.add ((bigSigma 2 13 22 a).add (maj a b c))).mod 0x100000000) fun a' =>
    withNat ((d.add t).mod 0x100000000) fun e' =>
    withNat ((((smallSigma 17 19 10 w14).add w9).add ((smallSigma 7 18 3 w1).add w0)).mod 0x100000000)
      fun w16 =>
    rounds ks w1 w2 w3 w4 w5 w6 w7 w8 w9 w10 w11 w12 w13 w14 w15 w16 a' a b c e' e f g

def addWords (x y : ℕ) : ℕ → ℕ
  | 0 => 0
  | n + 1 => (addWords x y n).add ((((word x n).add (word y n)).mod 0x100000000).shiftLeft (Nat.mul 32 n))

/-- Word `j` of a message of `length` bytes that spell `n`, padded to `count` blocks: the message,
a one bit, zeros, and the length in bits as the last two words. -/
def messageWord (length n count j : ℕ) : ℕ :=
  bif (Nat.mul 32 j.succ).ble (Nat.mul 8 length) then
    (n.shiftRight ((Nat.mul 8 length).sub (Nat.mul 32 j.succ))).mod 0x100000000
  else bif (Nat.mul 32 j).ble (Nat.mul 8 length) then
    (((Nat.mul 2 n).succ).shiftLeft (Nat.sub 31 ((Nat.mul 8 length).sub (Nat.mul 32 j)))).mod 0x100000000
  else bif j.succ.succ.beq (Nat.mul 16 count) then ((Nat.mul 8 length).shiftRight 32).mod 0x100000000
  else bif j.succ.beq (Nat.mul 16 count) then (Nat.mul 8 length).mod 0x100000000
  else 0

def compress (x : ℕ) (m : ℕ → ℕ) : ℕ :=
  withNat (rounds roundConstants (m 0) (m 1) (m 2) (m 3) (m 4) (m 5) (m 6) (m 7) (m 8) (m 9) (m 10) (m 11)
    (m 12) (m 13) (m 14) (m 15)
    (word x 7) (word x 6) (word x 5) (word x 4) (word x 3) (word x 2) (word x 1) (word x 0))
    fun y => addWords x y 8

def absorb (m : ℕ → ℕ) : ℕ → ℕ → ℕ → ℕ
  | 0, _, x => x
  | n + 1, b, x => withNat (compress x fun i => m ((Nat.mul 16 b).add i)) fun y => absorb m n b.succ y

def digestNat (length n : ℕ) : ℕ :=
  withNat n fun n => withNat ((8 * length + 65 + 511) / 512) fun count =>
  absorb (messageWord length n count) count 0 initial

example : digestNat 0 0 = 0xe3b0c44298fc1c149afbf4c8996fb92427ae41e4649b934ca495991b7852b855 := by
  decide +kernel

example : digestNat 3 0x616263 = 0xba7816bf8f01cfea414140de5dae2223b00361a396177a9cb410ff61f20015ad := by
  decide +kernel

end Sha256

/-- `hashlib.sha256(data).digest()`. -/
def sha256 (data : Bytes) : Digest :=
  ⟨Bytes.ofNat 32 (Sha256.digestNat data.length data.toNat),Bytes.length_ofNat _ _⟩

theorem toNat_sha256 (data : Bytes) :
    (sha256 data).val.toNat = Sha256.digestNat data.length data.toNat % 256 ^ 32 :=
  Bytes.toNat_ofNat _ _

end UnlearnShield
