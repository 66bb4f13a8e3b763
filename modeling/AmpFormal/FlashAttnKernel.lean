import AmpFormal.BarrierPhases
import AmpFormal.FlashAttnDispatch

/-!
# Shared-memory accesses of the attention kernel

A transcription of the control flow of `flash_attn_fwd_kernel` and of its accesses
to the shared arrays. What a thread does is cut at the barriers: its n-th segment
lies between the n-th barrier and the next one, and every segment ends in a
barrier. A write carries the value where that is read from `Q`, `K` or `V`; the
scores and the softmax are arithmetic on what is read here. Offsets into the global
arrays are `int` products that wrap, added to a wide pointer; the numbers of the rows
of a block in the grid fit an `int`.
-/

namespace AmpFormal.FlashAttnKernel

open AmpFormal.BarrierPhases AmpFormal.FlashAttnDispatch AmpFormal.WrappedInts

set_option autoImplicit false

/-- One block of a launch: `blockIdx` is (`qTile`, `bh`). -/
structure FlashBlock (R : Type*) where
  launch : Launch R
  qTile : Nat
  bh : Nat
  Q : Int → R
  K : Int → R
  V : Int → R

inductive SharedArray where
  | q
  | k
  | v
  | s
  deriving DecidableEq, Repr

inductive Access (R : Type*) where
  /-- a value of global memory is written -/
  | load (array : SharedArray) (index : Nat) (value : R)
  /-- a computed value is written -/
  | write (array : SharedArray) (index : Nat)
  | read (array : SharedArray) (index : Nat)

namespace FlashBlock

variable {R : Type*} (block : FlashBlock R)

def br : Nat := block.launch.tile.br

def bc : Nat := block.launch.tile.bc

def headDim : Nat := block.launch.tile.headDim

def blockDim : Nat := block.launch.block.toNat

def row (tid : Nat) : Nat := tid / 32

def lane (tid : Nat) : Nat := tid % 32

def qRow (tid : Nat) : Nat := block.qTile * block.br + row tid

/-- The thread does not return at once. -/
def Active (tid : Nat) : Prop := (block.qRow tid : Int) < block.launch.seqQ

instance (tid : Nat) : Decidable (block.Active tid) := inferInstanceAs (Decidable (_ < _))

/-- `b = bh / H_q` -/
def b : Int := (block.bh : Int).tdiv block.launch.numQHeads

/-- `hq = bh % H_q` -/
def hq : Int := (block.bh : Int).tmod block.launch.numQHeads

def hkv : Int := kvHead block.launch.numQHeads block.launch.numKvHeads block.hq

/-- The offsets of `qptr` and of `kptr` and `vptr`. -/
def qOffset : Int :=
  toInt32 (block.b * block.launch.strideQ.1) + toInt32 (block.hq * block.launch.strideQ.2.1)

def kvOffset : Int :=
  toInt32 (block.b * block.launch.strideK.1) + toInt32 (block.hkv * block.launch.strideK.2.1)

def rowElement (row : Nat) (strideS : Int) (d : Nat) : Int := toInt32 (toInt32 (row * strideS) + d)

variable [Zero R]

def loadQ (tid : Nat) : List (Access R) :=
  (strided (lane tid) block.headDim 32).map fun d =>
    .load .q (row tid * block.headDim + d)
      (if block.Active tid then
        block.Q (block.qOffset + rowElement (block.qRow tid) block.launch.strideQ.2.2 d) else 0)

/-- The element of a K or V tile at a flat index, 0 past `S_kv`. -/
def tileValue (data : Int → R) (kvTile i : Nat) : R :=
  let r := i / block.headDim
  let d := i % block.headDim
  let kvRow := kvTile * block.bc + r
  if (kvRow : Int) < block.launch.seqKv then
    data (block.kvOffset + rowElement kvRow block.launch.strideK.2.2 d) else 0

def loadTile (array : SharedArray) (data : Int → R) (kvTile tid : Nat) : List (Access R) :=
  (strided tid (block.bc * block.headDim) block.blockDim).map fun i =>
    let r := i / block.headDim
    let d := i % block.headDim
    .load array (r * block.headDim + d) (block.tileValue data kvTile i)

def loadKv (kvTile tid : Nat) : List (Access R) :=
  block.loadTile .k block.K kvTile tid ++ block.loadTile .v block.V kvTile tid

/-- `kv_abs >= S_kv || (causal && kv_abs > q_row)` -/
def Masked (kvTile tid j : Nat) : Prop :=
  block.launch.seqKv ≤ (kvTile * block.bc + j : Nat) ∨
    (block.launch.causal = true ∧ block.qRow tid < kvTile * block.bc + j)

instance (kvTile tid j : Nat) : Decidable (block.Masked kvTile tid j) :=
  inferInstanceAs (Decidable (_ ∨ _))

/-- The scores of a row: the unmasked ones read `sQ` and `sK`. -/
def scores (kvTile tid : Nat) : List (Access R) :=
  (List.range block.bc).flatMap fun j =>
    if block.Masked kvTile tid j then [.write .s (row tid * block.bc + j)]
    else ((List.range block.headDim).flatMap fun d =>
        [.read .q (row tid * block.headDim + d), .read .k (j * block.headDim + d)]) ++
      [.write .s (row tid * block.bc + j)]

/-- The softmax over the tile, and the output: every column of `sV` is read. -/
def output (tid : Nat) : List (Access R) :=
  ((List.range block.bc).map fun j => .read .s (row tid * block.bc + j)) ++
  ((List.range block.bc).flatMap fun j =>
    [.read .s (row tid * block.bc + j), .write .s (row tid * block.bc + j),
      .read .s (row tid * block.bc + j)]) ++
  (List.range block.headDim).flatMap fun d => (List.range block.bc).flatMap fun j =>
    [.read .s (row tid * block.bc + j), .read .v (j * block.headDim + d)]

/-- `Tc` -/
def tileCount : Nat := ((toInt32 (block.launch.seqKv + block.bc - 1)).tdiv block.bc).toNat

def kvTiles (tid : Nat) : List Nat :=
  (List.range block.tileCount).takeWhile fun kvTile =>
    ¬(block.launch.causal = true ∧ block.qRow tid < kvTile * block.bc)

/-- What a thread does between the barriers. A thread that returns at once takes
part in none. -/
def segments (tid : Nat) : List (List (Access R)) :=
  if block.Active tid then
    block.loadQ tid :: (block.kvTiles tid).flatMap fun kvTile =>
      [block.loadKv kvTile tid, block.scores kvTile tid, block.output tid]
  else []

def segment (tid n : Nat) : List (Access R) := (block.segments tid).getD n []

/-! ## The layout of the global arrays -/

omit [Zero R] in
/-- The places in arrays `[B, H, S, d]` of the elements that a block works on. -/
def qPlace (row : Nat) (d : Nat) : Int :=
  ((block.b * block.launch.numQHeads + block.hq) * block.launch.seqQ + row) * block.headDim + d

omit [Zero R] in
def kvPlace (row : Nat) (d : Nat) : Int :=
  ((block.b * block.launch.numKvHeads + block.hkv) * block.launch.seqKv + row) * block.headDim + d

/-- The element of K or V that belongs at a flat index of a tile, 0 past `S_kv`. -/
def tileElement (data : Int → R) (kvTile i : Nat) : R :=
  let kvRow := kvTile * block.bc + i / block.headDim
  if (kvRow : Int) < block.launch.seqKv then data (block.kvPlace kvRow (i % block.headDim)) else 0

end FlashBlock

end AmpFormal.FlashAttnKernel
