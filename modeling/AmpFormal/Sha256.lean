import Mathlib.Data.List.GetD
import Mathlib.Tactic.Ring

/-!
# SHA-256

The hash function of FIPS 180-4 on byte strings: the functions and constants of
section 4, the padding and the blocks of section 5, and the compression of section
6.2. The constants are taken from the roots of primes that the standard names.
-/

namespace AmpFormal.Sha256

set_option autoImplicit false

abbrev Word := UInt32

/-! ## Functions -/

def rotr (n x : Word) : Word := (x >>> n) ||| (x <<< (32 - n))

def ch (x y z : Word) : Word := (x &&& y) ^^^ (~~~x &&& z)

def maj (x y z : Word) : Word := (x &&& y) ^^^ (x &&& z) ^^^ (y &&& z)

def bigSigma0 (x : Word) : Word := rotr 2 x ^^^ rotr 13 x ^^^ rotr 22 x

def bigSigma1 (x : Word) : Word := rotr 6 x ^^^ rotr 11 x ^^^ rotr 25 x

def smallSigma0 (x : Word) : Word := rotr 7 x ^^^ rotr 18 x ^^^ (x >>> 3)

def smallSigma1 (x : Word) : Word := rotr 17 x ^^^ rotr 19 x ^^^ (x >>> 10)

/-! ## Constants -/

/-- The largest number below 2^`bits` whose k-th power is at most `n`. -/
def rootBelow (k n : Nat) : Nat → Nat
  | 0 => 0
  | bits + 1 =>
      -- the bits of the root above the current one are kept doubled
      let high := 2 * rootBelow k (n / 2 ^ k) bits
      if (high + 1) ^ k ≤ n then high + 1 else high

theorem root_below_spec (k n bits : Nat) (positive : 0 < k) (small : n < 2 ^ (k * bits)) :
    rootBelow k n bits ^ k ≤ n ∧ n < (rootBelow k n bits + 1) ^ k := by
  induction bits generalizing n with
  | zero =>
      obtain rfl : n = 0 := by simpa using small
      simp [rootBelow, Nat.pos_iff_ne_zero.mp positive]
  | succ bits ih =>
      have smaller : n / 2 ^ k < 2 ^ (k * bits) := by
        apply Nat.div_lt_of_lt_mul
        rwa [← Nat.pow_add, Nat.add_comm, ← Nat.mul_succ]
      obtain ⟨lower, upper⟩ := ih (n / 2 ^ k) smaller
      have below : (2 * rootBelow k (n / 2 ^ k) bits) ^ k ≤ n := by
        rw [Nat.mul_pow, Nat.mul_comm]
        exact (Nat.le_div_iff_mul_le (Nat.two_pow_pos k)).mp lower
      have above : n < (2 * rootBelow k (n / 2 ^ k) bits + 2) ^ k := by
        rw [show 2 * rootBelow k (n / 2 ^ k) bits + 2 =
          2 * (rootBelow k (n / 2 ^ k) bits + 1) by ring, Nat.mul_pow, Nat.mul_comm]
        exact (Nat.div_lt_iff_lt_mul (Nat.two_pow_pos k)).mp upper
      rw [rootBelow]
      split
      case isTrue fits => exact ⟨fits, above⟩
      case isFalse exceeds => exact ⟨below, Nat.not_le.mp exceeds⟩

/-- The primes below 312, of which there are 64. -/
def primes : List Nat :=
  (List.range 312).filter fun n => 2 ≤ n ∧ (List.range n).all fun d => d < 2 || n % d != 0

/-- The first 32 bits of the fractional part of the k-th root of a prime. -/
def rootFraction (k p : Nat) : Word := UInt32.ofNat (rootBelow k (p * 2 ^ (32 * k)) 40)

/-- K: from the cube roots of the first 64 primes. -/
def roundConstants : List Word := primes.map (rootFraction 3)

/-- The working variables, or the words of a hash value. -/
structure State where
  a : Word
  b : Word
  c : Word
  d : Word
  e : Word
  f : Word
  g : Word
  h : Word
  deriving DecidableEq, Repr

/-- The words of H(0): from the square roots of the first eight primes. -/
def initialWords : List Word := (primes.take 8).map (rootFraction 2)

namespace State

def ofWords (words : List Word) : State where
  a := words.getD 0 0
  b := words.getD 1 0
  c := words.getD 2 0
  d := words.getD 3 0
  e := words.getD 4 0
  f := words.getD 5 0
  g := words.getD 6 0
  h := words.getD 7 0

def words (s : State) : List Word := [s.a, s.b, s.c, s.d, s.e, s.f, s.g, s.h]

def add (s t : State) : State where
  a := s.a + t.a
  b := s.b + t.b
  c := s.c + t.c
  d := s.d + t.d
  e := s.e + t.e
  f := s.f + t.f
  g := s.g + t.g
  h := s.h + t.h

end State

def initialHash : State := .ofWords initialWords

/-! ## Compression -/

def messageWord (block : List UInt8) (t : Nat) : Word :=
  UInt32.ofNat ((block.getD (4 * t) 0).toNat * 2 ^ 24 + (block.getD (4 * t + 1) 0).toNat * 2 ^ 16 +
    (block.getD (4 * t + 2) 0).toNat * 2 ^ 8 + (block.getD (4 * t + 3) 0).toNat)

def scheduleNext (w : List Word) : Word :=
  let t := w.length
  smallSigma1 (w.getD (t - 2) 0) + w.getD (t - 7) 0 + smallSigma0 (w.getD (t - 15) 0) +
    w.getD (t - 16) 0

/-- The first 16 words of the schedule and `more`. -/
def schedule (block : List UInt8) : Nat → List Word
  | 0 => (List.range 16).map (messageWord block)
  | more + 1 =>
      let w := schedule block more
      w ++ [scheduleNext w]

theorem schedule_length (block : List UInt8) (more : Nat) :
    (schedule block more).length = 16 + more := by
  induction more with
  | zero => rfl
  | succ more ih =>
      simp only [schedule, List.length_append, List.length_singleton, ih]
      omega

def round (s : State) (k w : Word) : State :=
  let t1 := s.h + bigSigma1 s.e + ch s.e s.f s.g + k + w
  let t2 := bigSigma0 s.a + maj s.a s.b s.c
  { a := t1 + t2, b := s.a, c := s.b, d := s.c, e := s.d + t1, f := s.e, g := s.f, h := s.g }

def compress (hash : State) (block : List UInt8) : State :=
  let w := schedule block 48
  let final := (List.range 64).foldl
    (fun s t => round s (roundConstants.getD t 0) (w.getD t 0)) hash
  final.add hash

/-! ## Padding and blocks -/

/-- The number of zero bytes in the padding of a message of `length` bytes. -/
def zeroCount (length : Nat) : Nat := (119 - length % 64) % 64

/-- The zero bytes reach 56 modulo 64 behind the message and the byte 0x80. -/
theorem zero_count_reaches (length : Nat) : (length + 1 + zeroCount length) % 64 = 56 := by
  rw [zeroCount]
  omega

theorem zero_count_least {length fewer : Nat} (less : fewer < zeroCount length) :
    (length + 1 + fewer) % 64 ≠ 56 := by
  rw [zeroCount] at less
  omega

def bigEndian64 (n : Nat) : List UInt8 :=
  (List.range 8).map fun i => UInt8.ofNat (n / 2 ^ (8 * (7 - i)))

def padding (length : Nat) : List UInt8 :=
  0x80 :: (List.replicate (zeroCount length) 0 ++ bigEndian64 (8 * length))

def blocks (message : List UInt8) : List (List UInt8) :=
  (List.range (message.length / 64)).map fun i => (message.drop (64 * i)).take 64

def remainder (message : List UInt8) : List UInt8 := message.drop (64 * (message.length / 64))

theorem remainder_length (message : List UInt8) :
    (remainder message).length = message.length % 64 := by
  rw [remainder, List.length_drop]
  omega

theorem whole_blocks_append (message more : List UInt8) :
    ((List.range (message.length / 64)).map fun i =>
      ((message ++ more).drop (64 * i)).take 64) = blocks message := by
  apply List.map_congr_left
  intro i member
  have inside := List.mem_range.mp member
  rw [List.drop_append_of_le_length (by omega), List.take_append_of_le_length]
  rw [List.length_drop]
  omega

theorem blocks_append_short {message more : List UInt8}
    (short : (remainder message ++ more).length < 64) :
    blocks (message ++ more) = blocks message ∧
      remainder (message ++ more) = remainder message ++ more := by
  rw [List.length_append, remainder_length] at short
  have count : (message ++ more).length / 64 = message.length / 64 := by
    rw [List.length_append]
    omega
  refine ⟨?_, ?_⟩
  · rw [blocks, count, whole_blocks_append]
  · rw [remainder, count, remainder, List.drop_append_of_le_length (by omega)]

theorem blocks_append_full {message more : List UInt8}
    (full : (remainder message ++ more).length = 64) :
    blocks (message ++ more) = blocks message ++ [remainder message ++ more] ∧
      remainder (message ++ more) = [] := by
  have total := full
  rw [List.length_append, remainder_length] at total
  have count : (message ++ more).length / 64 = message.length / 64 + 1 := by
    rw [List.length_append]
    omega
  have last : (message ++ more).drop (64 * (message.length / 64)) = remainder message ++ more := by
    rw [remainder, List.drop_append_of_le_length (by omega)]
  refine ⟨?_, ?_⟩
  · rw [blocks, count, List.range_succ, List.map_append, whole_blocks_append, List.map_singleton,
      last, List.take_of_length_le (Nat.le_of_eq full)]
  · rw [remainder, count]
    apply List.drop_of_length_le
    rw [List.length_append]
    omega

def hash (message : List UInt8) : State :=
  (blocks (message ++ padding message.length)).foldl compress initialHash

def hexDigits : Nat → Nat → List Char
  | 0, _ => []
  | digits + 1, n => hexDigits digits (n / 16) ++ [Nat.digitChar (n % 16)]

theorem hex_digits_zero (digits : Nat) : hexDigits digits 0 = List.replicate digits '0' := by
  induction digits with
  | zero => rfl
  | succ digits ih =>
      rw [hexDigits, Nat.zero_div, ih, List.replicate_succ']
      rfl

theorem fill_digits (digits n : Nat) (some_digit : 0 < digits) (small : n < 16 ^ digits) :
    List.replicate (digits - (Nat.toDigits 16 n).length) '0' ++ Nat.toDigits 16 n =
      hexDigits digits n := by
  induction digits generalizing n with
  | zero => exact absurd some_digit (Nat.lt_irrefl 0)
  | succ digits ih =>
      rw [hexDigits, Nat.toDigits_eq_if (by decide)]
      split
      case isTrue single =>
        rw [Nat.div_eq_of_lt single, Nat.mod_eq_of_lt single, hex_digits_zero]
        rfl
      case isFalse several =>
        have quotient : n / 16 < 16 ^ digits := by
          apply Nat.div_lt_of_lt_mul
          rwa [Nat.mul_comm, ← Nat.pow_succ]
        have positive : 0 < digits := by
          apply Nat.pos_of_ne_zero
          rintro rfl
          exact several small
        rw [← ih (n / 16) positive quotient, List.length_append, List.length_singleton,
          Nat.add_sub_add_right, List.append_assoc]

/-- The 64 hexadecimal digits of a hash value. -/
def hexDigest (message : List UInt8) : String :=
  String.ofList ((hash message).words.flatMap fun word => hexDigits 8 word.toNat)

example : primes.length = 64 := by decide +kernel

example : hexDigest [0x61, 0x62, 0x63] =
    "ba7816bf8f01cfea414140de5dae2223b00361a396177a9cb410ff61f20015ad" := by decide +kernel

end AmpFormal.Sha256
