import AmpFormal.WrappedInts
import Mathlib.Algebra.Order.Ring.Int
import Mathlib.Algebra.Order.Group.Int
import Mathlib.Data.Int.Interval
import Mathlib.Tactic.Ring
import Mathlib.Data.Int.ConditionallyCompleteOrder
import Mathlib.Order.ConditionallyCompleteLattice.Basic

/-!
# Dispatch of the FlashAttention kernel

A transcription of `dispatch_flash_attn` up to the kernel launch. The strides, the
grid and the shared-memory request are computed in `int` and wrap; the request is
then a `size_t`. The limit `max_smem` of the device is a parameter, and so is
`1.0f / sqrtf(head_dim)`.
-/

namespace AmpFormal.FlashAttnDispatch

open AmpFormal.WrappedInts

set_option autoImplicit false

structure AttnCfg (R : Type*) where
  numQHeads : Int
  numKvHeads : Int
  headDim : Int
  causal : Bool
  scale : R
  br : Int
  bc : Int

/-- The member initialisers of `AttnCfg`. -/
def AttnCfg.initial (R : Type*) [Zero R] : AttnCfg R :=
  { numQHeads := 1, numKvHeads := 1, headDim := 128, causal := true, scale := 0, br := 32, bc := 64 }

structure Tile where
  br : Nat
  bc : Nat
  headDim : Nat
  deriving DecidableEq, Repr

/-- The branches with a `LAUNCH_FA`, in the order in which they are tried. -/
def launchBranches : List Tile :=
  [⟨32, 64, 128⟩, ⟨32, 32, 128⟩, ⟨32, 64, 64⟩, ⟨32, 32, 64⟩, ⟨16, 64, 128⟩, ⟨16, 32, 128⟩]

/-- `SHMEM`: the product with `sizeof(float)` is a `size_t`. -/
def shmem (br bc dim : Int) : Nat :=
  (toInt32 (br * dim + 2 * bc * dim + br * bc) * 4 % 2 ^ 64).toNat

/-- A kernel launch: grid, block, shared memory and kernel arguments. -/
structure Launch (R : Type*) where
  tile : Tile
  grid : Int × Int
  block : Int
  smem : Nat
  batch : Int
  numQHeads : Int
  numKvHeads : Int
  seqQ : Int
  seqKv : Int
  scale : R
  causal : Bool
  strideQ : Int × Int × Int
  strideK : Int × Int × Int
  strideO : Int × Int × Int

variable {R : Type*}

/-- `Bc` after the fall back to 32 where the device has too little shared memory. -/
def fittedBc (maxSmem : Nat) (br bc headDim : Int) : Int :=
  if bc = 64 ∧ shmem br bc headDim > maxSmem then 32 else bc

/-- `stride_B`, `stride_H` and `stride_S` of an array `[B, H, S, d]`. -/
def strides (heads seq headDim : Int) : Int × Int × Int :=
  (toInt32 (toInt32 (heads * seq) * headDim), toInt32 (seq * headDim), headDim)

def dispatchFlashAttn [Zero R] [LT R] [DecidableLT R] (invSqrt : Int → R) (maxSmem : Nat)
    (batch seqQ seqKv : Int) (cfg : AttnCfg R) : Except String (Launch R) :=
  let scale := if 0 < cfg.scale then cfg.scale else invSqrt cfg.headDim
  let strideQ := strides cfg.numQHeads seqQ cfg.headDim
  let strideK := strides cfg.numKvHeads seqKv cfg.headDim
  let br := min cfg.br 32
  let bc := fittedBc maxSmem br cfg.bc cfg.headDim
  let grid := ((toInt32 (seqQ + br - 1)).tdiv br, toInt32 (batch * cfg.numQHeads))
  match launchBranches.find? fun tile => br = tile.br ∧ bc = tile.bc ∧ cfg.headDim = tile.headDim with
  | some tile => .ok
      { tile, grid, block := br * 32, smem := shmem tile.br tile.bc tile.headDim, batch
        numQHeads := cfg.numQHeads, numKvHeads := cfg.numKvHeads, seqQ, seqKv, scale
        causal := cfg.causal, strideQ, strideK, strideO := strideQ }
  | none => .error (s!"flash_attn: unsupported (Br={br}, Bc={bc}, head_dim={cfg.headDim}" ++
      ") — falling back to a mismatched template would read/write out of bounds")

/-- `hkv = hq / (H_q / H_kv)` -/
def kvHead (numQHeads numKvHeads hq : Int) : Int := hq.tdiv (numQHeads.tdiv numKvHeads)

theorem dispatch_launches_iff [Zero R] [LT R] [DecidableLT R] {invSqrt : Int → R} {maxSmem : Nat}
    {batch seqQ seqKv : Int} {cfg : AttnCfg R} :
    (∃ launch, dispatchFlashAttn invSqrt maxSmem batch seqQ seqKv cfg = .ok launch) ↔
      ∃ tile ∈ launchBranches, min cfg.br 32 = tile.br ∧
        fittedBc maxSmem (min cfg.br 32) cfg.bc cfg.headDim = tile.bc ∧
        cfg.headDim = tile.headDim := by
  unfold dispatchFlashAttn
  dsimp only
  constructor
  · rintro ⟨launch, launched⟩
    split at launched
    case h_1 tile found =>
      exact ⟨tile, List.mem_of_find?_eq_some found, by simpa using List.find?_some found⟩
    case h_2 => cases launched
  · rintro ⟨tile, member, matching⟩
    split
    case h_1 => exact ⟨_, rfl⟩
    case h_2 missing =>
      exact absurd matching (by simpa using List.find?_eq_none.mp missing tile member)

structure LaunchOf (batch seqQ seqKv : Int) (cfg : AttnCfg R) (launch : Launch R) : Prop where
  tile : launch.tile ∈ launchBranches
  headDim : cfg.headDim = launch.tile.headDim
  block : launch.block = launch.tile.br * 32
  grid : launch.grid = ((toInt32 (seqQ + launch.tile.br - 1)).tdiv launch.tile.br,
    toInt32 (batch * cfg.numQHeads))
  sameBatch : launch.batch = batch
  numQHeads : launch.numQHeads = cfg.numQHeads
  numKvHeads : launch.numKvHeads = cfg.numKvHeads
  sameSeqQ : launch.seqQ = seqQ
  sameSeqKv : launch.seqKv = seqKv
  causal : launch.causal = cfg.causal
  strideQ : launch.strideQ = strides cfg.numQHeads seqQ cfg.headDim
  strideK : launch.strideK = strides cfg.numKvHeads seqKv cfg.headDim
  strideO : launch.strideO = launch.strideQ

theorem launch_of_dispatch [Zero R] [LT R] [DecidableLT R] {invSqrt : Int → R} {maxSmem : Nat}
    {batch seqQ seqKv : Int} {cfg : AttnCfg R} {launch : Launch R}
    (dispatched : dispatchFlashAttn invSqrt maxSmem batch seqQ seqKv cfg = .ok launch) :
    LaunchOf batch seqQ seqKv cfg launch := by
  unfold dispatchFlashAttn at dispatched
  dsimp only at dispatched
  split at dispatched
  case h_1 tile found =>
    have matching := List.find?_some found
    simp only [decide_eq_true_eq] at matching
    cases dispatched
    exact
      { tile := List.mem_of_find?_eq_some found
        headDim := matching.2.2
        block := congrArg (· * 32) matching.1
        grid := by rw [matching.1]
        sameBatch := rfl
        numQHeads := rfl
        numKvHeads := rfl
        sameSeqQ := rfl
        sameSeqKv := rfl
        causal := rfl
        strideQ := rfl
        strideK := rfl
        strideO := rfl }
  case h_2 => cases dispatched

/-- With the default tiles only the head dimension decides: the fall back has its
own branch. -/
theorem default_tiles_launch_iff [Zero R] [LT R] [DecidableLT R] (invSqrt : Int → R)
    (maxSmem : Nat) (batch seqQ seqKv : Int) (cfg : AttnCfg R) (br : cfg.br = 32)
    (bc : cfg.bc = 64) :
    (∃ launch, dispatchFlashAttn invSqrt maxSmem batch seqQ seqKv cfg = .ok launch) ↔
      cfg.headDim = 64 ∨ cfg.headDim = 128 := by
  have fitted : fittedBc maxSmem 32 64 cfg.headDim = 32 ∨
      fittedBc maxSmem 32 64 cfg.headDim = 64 := by
    unfold fittedBc
    split
    · exact .inl rfl
    · exact .inr rfl
  rw [dispatch_launches_iff, br, bc, min_self]
  rcases fitted with small | large
  · rw [small]
    simp [launchBranches, or_comm]
  · rw [large]
    simp [launchBranches, or_comm]

section HeadMapping

variable {numQHeads numKvHeads : Int}

theorem kv_head_eq (queries : 0 < numQHeads) {hq : Int} (head : 0 ≤ hq) :
    kvHead numQHeads numKvHeads hq = hq / (numQHeads / numKvHeads) := by
  unfold kvHead
  rw [Int.tdiv_eq_ediv_of_nonneg head, Int.tdiv_eq_ediv_of_nonneg queries.le]

/-- The query heads of a KV head are an interval of `H_q / H_kv` heads. -/
theorem kv_head_eq_iff {group : Int} (keys : 0 < numKvHeads) (positive : 0 < group)
    (whole : numQHeads = group * numKvHeads) {hq : Int} (head : 0 ≤ hq) (hkv : Int) :
    kvHead numQHeads numKvHeads hq = hkv ↔ hkv * group ≤ hq ∧ hq < hkv * group + group := by
  have queries : 0 < numQHeads := whole ▸ mul_pos positive keys
  have share : numQHeads / numKvHeads = group := by
    rw [whole, Int.mul_ediv_cancel _ keys.ne']
  rw [kv_head_eq queries head, share, Int.ediv_eq_iff_of_pos positive]

theorem kv_head_range {group : Int} (keys : 0 < numKvHeads) (positive : 0 < group)
    (whole : numQHeads = group * numKvHeads) {hq : Int} (head : 0 ≤ hq) (below : hq < numQHeads) :
    0 ≤ kvHead numQHeads numKvHeads hq ∧ kvHead numQHeads numKvHeads hq < numKvHeads := by
  have queries : 0 < numQHeads := whole ▸ mul_pos positive keys
  rw [kv_head_eq queries head, whole, Int.mul_ediv_cancel _ keys.ne']
  refine ⟨Int.ediv_nonneg head positive.le, Int.ediv_lt_of_lt_mul positive ?_⟩
  rwa [Int.mul_comm, ← whole]

theorem kv_head_share {group : Int} (keys : 0 < numKvHeads) (positive : 0 < group)
    (whole : numQHeads = group * numKvHeads) {hkv : Int} (head : 0 ≤ hkv)
    (below : hkv < numKvHeads) :
    (((Finset.Ico 0 numQHeads).filter fun hq => kvHead numQHeads numKvHeads hq = hkv).card : Int) =
      group := by
  have first : 0 ≤ hkv * group := mul_nonneg head positive.le
  have last : hkv * group + group ≤ numQHeads := by
    calc hkv * group + group = (hkv + 1) * group := by ring
      _ ≤ numKvHeads * group := mul_le_mul_of_nonneg_right below positive.le
      _ = numQHeads := by rw [whole, mul_comm]
  have interval : (Finset.Ico 0 numQHeads).filter
      (fun hq => kvHead numQHeads numKvHeads hq = hkv) =
        Finset.Ico (hkv * group) (hkv * group + group) := by
    ext hq
    rw [Finset.mem_filter, Finset.mem_Ico, Finset.mem_Ico]
    constructor
    · intro member
      exact (kv_head_eq_iff keys positive whole member.1.1 hkv).mp member.2
    · intro member
      have nonneg : 0 ≤ hq := first.trans member.1
      exact ⟨⟨nonneg, member.2.trans_le last⟩,
        (kv_head_eq_iff keys positive whole nonneg hkv).mpr member⟩
  rw [interval, Int.card_Ico, add_sub_cancel_left, Int.toNat_of_nonneg positive.le]

end HeadMapping

end AmpFormal.FlashAttnDispatch
