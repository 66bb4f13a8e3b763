import AmpFormal.FileDirectory
import Mathlib.Logic.Function.Basic
import Mathlib.Data.List.Basic

/-!
# The digest behind a cache key

A transcription of the `SHA256` of the disk cache and of `CacheStore::fingerprint`,
which feeds it the fields of a compile target. Strings are byte strings. Of the
buffer, `buf` keeps the `buf_len` bytes that are in use; it is never full between two
passes of a loop.
-/

namespace AmpFormal.CacheDigestModel

open AmpFormal.FileDirectory

set_option autoImplicit false

/-! ## SHA256 -/

structure SHA256 where
  h : Vector UInt32 8
  bitLen : UInt64
  buf : Bytes
  room : buf.length < 64

namespace SHA256

def create : SHA256 where
  h := #v[0x6a09e667, 0xbb67ae85, 0x3c6ef372, 0xa54ff53a, 0x510e527f, 0x9b05688c, 0x1f83d9ab,
    0x5be0cd19]
  bitLen := 0
  buf := []
  room := by decide

def rot (x n : UInt32) : UInt32 := (x >>> n) ||| (x <<< (32 - n))

def K : List UInt32 :=
  [0x428a2f98, 0x71374491, 0xb5c0fbcf, 0xe9b5dba5, 0x3956c25b, 0x59f111f1,
    0x923f82a4, 0xab1c5ed5, 0xd807aa98, 0x12835b01, 0x243185be, 0x550c7dc3,
    0x72be5d74, 0x80deb1fe, 0x9bdc06a7, 0xc19bf174, 0xe49b69c1, 0xefbe4786,
    0x0fc19dc6, 0x240ca1cc, 0x2de92c6f, 0x4a7484aa, 0x5cb0a9dc, 0x76f988da,
    0x983e5152, 0xa831c66d, 0xb00327c8, 0xbf597fc7, 0xc6e00bf3, 0xd5a79147,
    0x06ca6351, 0x14292967, 0x27b70a85, 0x2e1b2138, 0x4d2c6dfc, 0x53380d13,
    0x650a7354, 0x766a0abb, 0x81c2c92e, 0x92722c85, 0xa2bfe8a1, 0xa81a664b,
    0xc24b8b70, 0xc76c51a3, 0xd192e819, 0xd6990624, 0xf40e3585, 0x106aa070,
    0x19a4c116, 0x1e376c08, 0x2748774c, 0x34b0bcb5, 0x391c0cb3, 0x4ed8aa4a,
    0x5b9cca4f, 0x682e6ff3, 0x748f82ee, 0x78a5636f, 0x84c87814, 0x8cc70208,
    0x90befffa, 0xa4506ceb, 0xbef9a3f7, 0xc67178f2]

/-- `w[i]=(p[i*4]<<24)|(p[i*4+1]<<16)|(p[i*4+2]<<8)|p[i*4+3]` -/
def load (p : Bytes) (w : Nat → UInt32) (i : Nat) : Nat → UInt32 :=
  Function.update w i (((p.getD (i * 4) 0).toUInt32 <<< 24) |||
    ((p.getD (i * 4 + 1) 0).toUInt32 <<< 16) ||| ((p.getD (i * 4 + 2) 0).toUInt32 <<< 8) |||
      (p.getD (i * 4 + 3) 0).toUInt32)

def extend (w : Nat → UInt32) (i : Nat) : Nat → UInt32 :=
  let s0 := rot (w (i - 15)) 7 ^^^ rot (w (i - 15)) 18 ^^^ (w (i - 15) >>> 3)
  let s1 := rot (w (i - 2)) 17 ^^^ rot (w (i - 2)) 19 ^^^ (w (i - 2) >>> 10)
  Function.update w i (w (i - 16) + s0 + w (i - 7) + s1)

def words (p : Bytes) : Nat → UInt32 :=
  (List.range' 16 48).foldl extend ((List.range 16).foldl (load p) fun _ => 0)

structure Vars where
  a : UInt32
  b : UInt32
  c : UInt32
  d : UInt32
  e : UInt32
  f : UInt32
  g : UInt32
  hh : UInt32

def round (w : Nat → UInt32) (v : Vars) (i : Nat) : Vars :=
  let S1 := rot v.e 6 ^^^ rot v.e 11 ^^^ rot v.e 25
  let ch := (v.e &&& v.f) ^^^ (~~~v.e &&& v.g)
  let t1 := v.hh + S1 + ch + K.getD i 0 + w i
  let S0 := rot v.a 2 ^^^ rot v.a 13 ^^^ rot v.a 22
  let mj := (v.a &&& v.b) ^^^ (v.a &&& v.c) ^^^ (v.b &&& v.c)
  let t2 := S0 + mj
  { a := t1 + t2, b := v.a, c := v.b, d := v.c, e := v.d + t1, f := v.e, g := v.f, hh := v.g }

def block (h : Vector UInt32 8) (p : Bytes) : Vector UInt32 8 :=
  let w := words p
  let v := (List.range 64).foldl (round w)
    { a := h[0], b := h[1], c := h[2], d := h[3], e := h[4], f := h[5], g := h[6], hh := h[7] }
  #v[h[0] + v.a, h[1] + v.b, h[2] + v.c, h[3] + v.d, h[4] + v.e, h[5] + v.f, h[6] + v.g,
    h[7] + v.hh]

def varsOf (h : Vector UInt32 8) : Vars where
  a := h[0]
  b := h[1]
  c := h[2]
  d := h[3]
  e := h[4]
  f := h[5]
  g := h[6]
  hh := h[7]

theorem block_eq (h : Vector UInt32 8) (p : Bytes) :
    let v := (List.range 64).foldl (round (words p)) (varsOf h)
    block h p = #v[h[0] + v.a, h[1] + v.b, h[2] + v.c, h[3] + v.d, h[4] + v.e, h[5] + v.f,
      h[6] + v.g, h[7] + v.hh] := rfl

def absorb (s : SHA256) (d : Bytes) : SHA256 :=
  if more : d = [] then s
  else
    let k := min (64 - s.buf.length) d.length
    if full : (s.buf ++ d.take k).length = 64 then
      absorb { s with h := block s.h (s.buf ++ d.take k), buf := [], room := by decide } (d.drop k)
    else
      absorb
        { s with
          buf := s.buf ++ d.take k
          room := by
            have room := s.room
            simp only [List.length_append, List.length_take] at full ⊢
            omega }
        (d.drop k)
  termination_by d.length
  decreasing_by
    all_goals
      have room := s.room
      have filled := List.length_pos_iff.mpr more
      rw [List.length_drop]
      omega

def update (s : SHA256) (d : Bytes) : SHA256 :=
  { s with bitLen := s.bitLen + UInt64.ofNat d.length * 8 }.absorb d

theorem update_single_length (s : SHA256) (byte : UInt8) :
    (s.update [byte]).buf.length = (s.buf.length + 1) % 64 := by
  have room := s.room
  have one : min (64 - s.buf.length) [byte].length = 1 := by
    rw [List.length_singleton]
    omega
  rw [update, absorb, dif_neg (List.cons_ne_nil _ _)]
  simp only [one, List.take_succ_cons, List.take_zero, List.drop_succ_cons, List.drop_zero]
  split
  case isTrue full =>
    rw [absorb, dif_pos rfl]
    rw [List.length_append, List.length_singleton] at full
    rw [full]
    rfl
  case isFalse partly =>
    rw [absorb, dif_pos rfl]
    rw [List.length_append, List.length_singleton] at partly ⊢
    omega

/-- `while (buf_len!=56) { uint8_t z=0; update(&z,1); }` -/
def padZeros (s : SHA256) : SHA256 :=
  if s.buf.length = 56 then s else padZeros (s.update [0])
  termination_by (120 - s.buf.length) % 64
  decreasing_by
    have room := s.room
    rw [update_single_length]
    omega

/-- The array `lb`: `lb[7-i]=(bl>>(i*8))&0xff`. -/
def lengthBytes (bl : UInt64) : Bytes :=
  (List.range 8).map fun j => ((bl >>> UInt64.ofNat ((7 - j) * 8)) &&& 0xff).toUInt8

/-- `std::hex<<std::setw(8)<<std::setfill('0')` -/
def hexWord (word : UInt32) : List Char :=
  let digits := Nat.toDigits 16 word.toNat
  List.replicate (8 - digits.length) '0' ++ digits

def hexdigest (s : SHA256) : String :=
  let bl := s.bitLen
  let s := s.update [0x80]
  let s := s.padZeros
  let s := s.update (lengthBytes bl)
  String.ofList (s.h.toList.flatMap hexWord)

end SHA256

/-! ## Fingerprints -/

structure CompileGraph where
  op : Bytes
  shape : List Int32
  dtype : Bytes
  arch : Bytes
  tuneCfg : Bytes
  runtimeVer : Bytes
  deriving DecidableEq

def decimal (d : Int32) : Bytes :=
  (Int.repr d.toInt).toList.map fun char => UInt8.ofNat char.toNat

def bar : UInt8 := 124

def comma : UInt8 := 44

/-- What `fingerprint` writes to its stream. -/
def fingerprintText (g : CompileGraph) : Bytes :=
  g.op ++ [bar] ++ g.dtype ++ [bar] ++ g.arch ++ [bar] ++ g.tuneCfg ++ [bar] ++ g.runtimeVer ++
    [bar] ++ g.shape.flatMap fun d => decimal d ++ [comma]

def fingerprint (g : CompileGraph) : String :=
  let s := SHA256.create.update (fingerprintText g)
  String.ofList (s.hexdigest.toList.take 16)

end AmpFormal.CacheDigestModel
