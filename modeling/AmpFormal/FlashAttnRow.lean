import Mathlib.Algebra.Order.Field.Basic

/-!
# The softmax loop of the attention kernel

A transcription of the arithmetic of `flash_attn_fwd_kernel` for one row of Q: the
scores of a tile, the running maximum and sum, and the output, which is kept
normalised. The tiles of K and V are those that the loads leave, with zeros past
`S_kv`. Numbers are exact. `expDiff a b` is `expf(a - b)`.
-/

namespace AmpFormal.FlashAttnRow

set_option autoImplicit false

/-- What a row of the kernel works on. `k` and `v` are the rows of its KV head. -/
structure AttnRow (R : Type*) where
  bc : Nat
  headDim : Nat
  seqKv : Nat
  qRow : Nat
  causal : Bool
  scale : R
  q : Nat → R
  k : Nat → Nat → R
  v : Nat → Nat → R

structure RowState (R : Type*) where
  m : R
  l : R
  o : Nat → R

def RowState.lse {R : Type*} [Field R] [LinearOrder R] (logf : R → R) (state : RowState R) : R :=
  state.m + logf (if state.l > 0 then state.l else 1 / 10 ^ 30)

/-- `-1e30f` -/
def sentinel {R : Type*} [Ring R] : R := -10 ^ 30

namespace AttnRow

variable {R : Type*} [Field R] [LinearOrder R] (row : AttnRow R) (expDiff : R → R → R)

/-- `kv_abs >= S_kv || (causal && kv_abs > q_row)` -/
def Masked (kvAbs : Nat) : Prop :=
  row.seqKv ≤ kvAbs ∨ (row.causal = true ∧ row.qRow < kvAbs)

instance (kvAbs : Nat) : Decidable (row.Masked kvAbs) :=
  inferInstanceAs (Decidable (_ ∨ _))

def sK (kvStart r d : Nat) : R := if kvStart + r < row.seqKv then row.k (kvStart + r) d else 0

def sV (kvStart r d : Nat) : R := if kvStart + r < row.seqKv then row.v (kvStart + r) d else 0

def dot (kvStart j : Nat) : R :=
  (List.range row.headDim).foldl (fun dot d => dot + row.q d * row.sK kvStart j d) 0

def sS (kvStart j : Nat) : R :=
  if row.Masked (kvStart + j) then sentinel else row.dot kvStart j * row.scale

def mTile (kvStart : Nat) : R :=
  (List.range row.bc).foldl (fun m j => max m (row.sS kvStart j)) sentinel

def lTile (kvStart : Nat) (mNew : R) : R :=
  (List.range row.bc).foldl (fun l j => l + expDiff (row.sS kvStart j) mNew) 0

def pv (kvStart : Nat) (mNew : R) (d : Nat) : R :=
  (List.range row.bc).foldl
    (fun pv j => pv + expDiff (row.sS kvStart j) mNew * row.sV kvStart j d) 0

/-- The body of the loop over the KV tiles, behind the causal break. -/
def tileStep (state : RowState R) (kvTile : Nat) : RowState R :=
  let kvStart := kvTile * row.bc
  let mNew := max state.m (row.mTile kvStart)
  let alpha := expDiff state.m mNew
  let lNew := alpha * state.l + row.lTile expDiff kvStart mNew
  let scOld := if lNew > 0 then state.l * alpha / lNew else 0
  let scNew := if lNew > 0 then 1 / lNew else 0
  { m := mNew
    l := lNew
    o := fun d => scOld * state.o d + scNew * row.pv expDiff kvStart mNew d }

def kvLoop : List Nat → RowState R → RowState R
  | [], state => state
  | kvTile :: rest, state =>
      -- causal: skip the tiles after the boundary
      if row.causal = true ∧ row.qRow < kvTile * row.bc then state
      else kvLoop rest (row.tileStep expDiff state kvTile)

/-- `Tc` -/
def tileCount : Nat := (row.seqKv + row.bc - 1) / row.bc

def start : RowState R where
  m := sentinel
  l := 0
  o := fun _ => 0

def run : RowState R := row.kvLoop expDiff (List.range row.tileCount) start

end AttnRow

end AmpFormal.FlashAttnRow
