import AmpFormal.FlashAttnKernel
import AmpFormal.FlashAttnRow
import AmpFormal.PhaseRules

/-!
# The attention kernel as a machine

A transcription of `flash_attn_fwd_kernel` with its data: the shared arrays, the
registers of every thread and the writes to `O` and `lse`. The 32 threads of a warp
all compute the row of their warp. An operation is one pass through the body of a
loop, but the exponentials are cut at their accesses to `sS`, because the threads of
a warp overwrite there what the others still read. Numbers are exact, and
`AMP_FLOAT_TO_BF16`, `expf` of a difference and `logf` are parameters. A shared cell
holds nothing before it is written; an access outside an array and a read of an
empty cell have no result.
-/

namespace AmpFormal.FlashAttnMachine

open AmpFormal.BarrierPhases AmpFormal.FlashAttnDispatch AmpFormal.FlashAttnKernel
open AmpFormal.FlashAttnRow AmpFormal.PhaseRules AmpFormal.WrappedInts

set_option autoImplicit false

structure FlashFwd (R : Type*) extends FlashBlock R where
  expDiff : R → R → R
  logf : R → R
  toBf16 : R → R

/-- The shared arrays and the writes to `O` and `lse` in their order. -/
structure SharedState (R : Type*) where
  cells : SharedArray × Nat → Option R
  o : List (Int × R)
  lse : List (Int × R)

/-- The variables of a thread that outlive one pass through a loop. -/
structure Lane (R : Type*) extends RowState R where
  mTile : R
  mNew : R
  alpha : R
  lTile : R
  lNew : R
  scOld : R
  scNew : R
  /-- the score that was read and is not yet overwritten -/
  x : R

inductive FlashOp where
  | loadQ (d : Nat)
  | loadK (kvTile i : Nat)
  | loadV (kvTile i : Nat)
  | score (kvTile j : Nat)
  | startTile
  | maxScore (j : Nat)
  | rescale
  | readScore (j : Nat)
  | writeExp (j : Nat)
  | addExp (j : Nat)
  | normalise
  | output (d : Nat)
  | nextTile
  | storeO (d : Nat)
  | storeLse
  deriving DecidableEq, Repr

/-- `data[index]` for an array of `size` elements. -/
def readGlobal {R : Type*} (size : Int) (data : Int → R) (index : Int) : Option R :=
  if 0 ≤ index ∧ index < size then some (data index) else none

/-- `data[index] = value`, as an entry of the writes to `data`. -/
def writeGlobal {R : Type*} (size index : Int) (value : R) (writes : List (Int × R)) :
    Option (List (Int × R)) :=
  if 0 ≤ index ∧ index < size then some (writes ++ [(index, value)]) else none

namespace FlashFwd

variable {R : Type*} (fwd : FlashFwd R)

def arraySize : SharedArray → Nat
  | .q => fwd.br * fwd.headDim
  | .k => fwd.bc * fwd.headDim
  | .v => fwd.bc * fwd.headDim
  | .s => fwd.br * fwd.bc

def readCell (array : SharedArray) (index : Nat) (s : SharedState R) : Option R :=
  if index < fwd.arraySize array then s.cells (array, index) else none

def writeCell (array : SharedArray) (index : Nat) (value : R) (s : SharedState R) :
    Option (SharedState R) :=
  if index < fwd.arraySize array then
    some { s with cells := Function.update s.cells (array, index) (some value) }
  else none

def qSize : Int := fwd.launch.batch * fwd.launch.numQHeads * fwd.launch.seqQ * fwd.headDim

def kvSize : Int := fwd.launch.batch * fwd.launch.numKvHeads * fwd.launch.seqKv * fwd.headDim

def lseSize : Int := fwd.launch.batch * fwd.launch.numQHeads * fwd.launch.seqQ

def oOffset : Int :=
  toInt32 (fwd.b * fwd.launch.strideO.1) + toInt32 (fwd.hq * fwd.launch.strideO.2.1)

def lseOffset : Int :=
  toInt32 (toInt32 (toInt32 (fwd.b * fwd.launch.numQHeads) + fwd.hq) * fwd.launch.seqQ)

variable [Field R]

def readQ (tid d : Nat) : Option R :=
  if fwd.Active tid then
    readGlobal fwd.qSize fwd.Q
      (fwd.qOffset + FlashBlock.rowElement (fwd.qRow tid) fwd.launch.strideQ.2.2 d)
  else some 0

/-- The element of `kptr` or `vptr` for a flat index of the tile. -/
def readKv (data : Int → R) (kvTile i : Nat) : Option R :=
  let r := i / fwd.headDim
  let d := i % fwd.headDim
  let kvRow := kvTile * fwd.bc + r
  if (kvRow : Int) < fwd.launch.seqKv then
    readGlobal fwd.kvSize data
      (fwd.kvOffset + FlashBlock.rowElement kvRow fwd.launch.strideK.2.2 d)
  else some 0

def dot (tid j : Nat) (s : SharedState R) : Option R :=
  (List.range fwd.headDim).foldlM (fun dot d => do
    let q ← fwd.readCell .q (FlashBlock.row tid * fwd.headDim + d) s
    let k ← fwd.readCell .k (j * fwd.headDim + d) s
    some (dot + q * k)) 0

def scoreAt [LinearOrder R] (kvTile tid j : Nat) (s : SharedState R) : Option R :=
  if fwd.Masked kvTile tid j then some sentinel
  else (fwd.dot tid j s).map (· * fwd.launch.scale)

def weightedColumn (tid d : Nat) (s : SharedState R) : Option R :=
  (List.range fwd.bc).foldlM (fun pv j => do
    let weight ← fwd.readCell .s (FlashBlock.row tid * fwd.bc + j) s
    let v ← fwd.readCell .v (j * fwd.headDim + d) s
    some (pv + weight * v)) 0

variable [LinearOrder R]

def step (tid : Nat) : FlashOp → SharedState R → Lane R → Option (SharedState R × Lane R)
  | .loadQ d, s, lane => do
      let value ← fwd.readQ tid d
      let s ← fwd.writeCell .q (FlashBlock.row tid * fwd.headDim + d) value s
      some (s, lane)
  | .loadK kvTile i, s, lane => do
      let value ← fwd.readKv fwd.K kvTile i
      let s ← fwd.writeCell .k (i / fwd.headDim * fwd.headDim + i % fwd.headDim) value s
      some (s, lane)
  | .loadV kvTile i, s, lane => do
      let value ← fwd.readKv fwd.V kvTile i
      let s ← fwd.writeCell .v (i / fwd.headDim * fwd.headDim + i % fwd.headDim) value s
      some (s, lane)
  | .score kvTile j, s, lane => do
      let score ← fwd.scoreAt kvTile tid j s
      let s ← fwd.writeCell .s (FlashBlock.row tid * fwd.bc + j) score s
      some (s, lane)
  | .startTile, s, lane => some (s, { lane with mTile := sentinel })
  | .maxScore j, s, lane => do
      let score ← fwd.readCell .s (FlashBlock.row tid * fwd.bc + j) s
      some (s, { lane with mTile := max lane.mTile score })
  | .rescale, s, lane =>
      let mNew := max lane.m lane.mTile
      some (s, { lane with mNew, alpha := fwd.expDiff lane.m mNew, lTile := 0 })
  | .readScore j, s, lane => do
      let score ← fwd.readCell .s (FlashBlock.row tid * fwd.bc + j) s
      some (s, { lane with x := score })
  | .writeExp j, s, lane => do
      let s ← fwd.writeCell .s (FlashBlock.row tid * fwd.bc + j) (fwd.expDiff lane.x lane.mNew) s
      some (s, lane)
  | .addExp j, s, lane => do
      let weight ← fwd.readCell .s (FlashBlock.row tid * fwd.bc + j) s
      some (s, { lane with lTile := lane.lTile + weight })
  | .normalise, s, lane =>
      let lNew := lane.alpha * lane.l + lane.lTile
      some (s, { lane with
        lNew
        scOld := if lNew > 0 then lane.l * lane.alpha / lNew else 0
        scNew := if lNew > 0 then 1 / lNew else 0 })
  | .output d, s, lane => do
      let pv ← fwd.weightedColumn tid d s
      some (s, { lane with
        o := Function.update lane.o d (lane.scOld * lane.o d + lane.scNew * pv) })
  | .nextTile, s, lane => some (s, { lane with m := lane.mNew, l := lane.lNew })
  | .storeO d, s, lane => do
      let o ← writeGlobal fwd.qSize
        (fwd.oOffset + FlashBlock.rowElement (fwd.qRow tid) fwd.launch.strideO.2.2 d)
        (fwd.toBf16 (lane.o d)) s.o
      some ({ s with o }, lane)
  | .storeLse, s, lane => do
      let lse ← writeGlobal fwd.lseSize (fwd.lseOffset + fwd.qRow tid)
        (lane.toRowState.lse fwd.logf) s.lse
      some ({ s with lse }, lane)

/-! ## The programs of the threads -/

def loadQ (tid : Nat) : List FlashOp :=
  (strided (FlashBlock.lane tid) fwd.headDim 32).map .loadQ

def loadKv (kvTile tid : Nat) : List FlashOp :=
  (strided tid (fwd.bc * fwd.headDim) fwd.blockDim).map (.loadK kvTile) ++
    (strided tid (fwd.bc * fwd.headDim) fwd.blockDim).map (.loadV kvTile)

def scores (kvTile : Nat) : List FlashOp := (List.range fwd.bc).map (.score kvTile)

/-- The loop that replaces the scores of the row by their exponentials. -/
def exponentials : List FlashOp :=
  (List.range fwd.bc).flatMap fun j => [.readScore j, .writeExp j, .addExp j]

def softmax : List FlashOp :=
  [.startTile] ++ (List.range fwd.bc).map .maxScore ++ [.rescale] ++ fwd.exponentials ++
    [.normalise] ++ (List.range fwd.headDim).map .output ++ [.nextTile]

def store : List FlashOp := (List.range fwd.headDim).map .storeO ++ [.storeLse]

/-- What a thread does between the barriers, and behind the last one. -/
def program (tid : Nat) : List (List FlashOp) :=
  if fwd.Active tid then
    [fwd.loadQ tid] ++
      ((fwd.kvTiles tid).flatMap fun kvTile =>
        [fwd.loadKv kvTile tid, fwd.scores kvTile, fwd.softmax]) ++
      [fwd.store]
  else []

abbrev Thread (fwd : FlashFwd R) := Fin fwd.blockDim

/-- The n-th phase of the block for all threads; the first thread takes part in all. -/
def phases : List (fwd.Thread → List FlashOp) :=
  (List.range (fwd.program 0).length).map fun n tid => (fwd.program tid).getD n []

/-- No thread of a warp overwrites a score that another one of the warp has yet to
read. Threads of a warp that go in step keep to it; no barrier does it. -/
def ReadsFirst (order : List (fwd.Thread × FlashOp)) : Prop :=
  ∀ before (tid : fwd.Thread) j after, order = before ++ (tid, .writeExp j) :: after →
    ∀ other : fwd.Thread, FlashBlock.row other = FlashBlock.row tid →
      (other, .readScore j) ∈ before

def startLane : Lane R :=
  { m := sentinel, l := 0, o := fun _ => 0, mTile := 0, mNew := 0, alpha := 0, lTile := 0
    lNew := 0, scOld := 0, scNew := 0, x := 0 }

def initial : Machine fwd.Thread (SharedState R) (Lane R) :=
  { shared := { cells := fun _ => none, o := [], lse := [] }, regs := fun _ => startLane }

def runBlock (orders : List (List (fwd.Thread × FlashOp))) :
    Option (Machine fwd.Thread (SharedState R) (Lane R)) :=
  runPhases (machineStep fun tid : fwd.Thread => fwd.step tid) orders fwd.initial

/-! ## The accesses to the shared arrays -/

/-- What an operation accesses, in terms of the control flow alone. -/
def accesses (tid : Nat) : FlashOp → List (Access R)
  | .loadQ d => [.load .q (FlashBlock.row tid * fwd.headDim + d) (if fwd.Active tid then
      fwd.Q (fwd.qOffset + FlashBlock.rowElement (fwd.qRow tid) fwd.launch.strideQ.2.2 d) else 0)]
  | .loadK kvTile i => [.load .k (i / fwd.headDim * fwd.headDim + i % fwd.headDim)
      (fwd.tileValue fwd.K kvTile i)]
  | .loadV kvTile i => [.load .v (i / fwd.headDim * fwd.headDim + i % fwd.headDim)
      (fwd.tileValue fwd.V kvTile i)]
  | .score kvTile j =>
      if fwd.Masked kvTile tid j then [.write .s (FlashBlock.row tid * fwd.bc + j)]
      else ((List.range fwd.headDim).flatMap fun d =>
        [.read .q (FlashBlock.row tid * fwd.headDim + d), .read .k (j * fwd.headDim + d)]) ++
          [.write .s (FlashBlock.row tid * fwd.bc + j)]
  | .maxScore j => [.read .s (FlashBlock.row tid * fwd.bc + j)]
  | .readScore j => [.read .s (FlashBlock.row tid * fwd.bc + j)]
  | .writeExp j => [.write .s (FlashBlock.row tid * fwd.bc + j)]
  | .addExp j => [.read .s (FlashBlock.row tid * fwd.bc + j)]
  | .output d => (List.range fwd.bc).flatMap fun j =>
      [.read .s (FlashBlock.row tid * fwd.bc + j), .read .v (j * fwd.headDim + d)]
  | _ => []

omit [LinearOrder R] in
/-- Up to the store, the machine accesses what the block accesses segment by segment. -/
theorem program_accesses (tid : Nat) :
    (fwd.program tid).dropLast.map (fun phase => phase.flatMap (fwd.accesses tid)) =
      fwd.toFlashBlock.segments tid := by
  have loads : (fwd.loadQ tid).flatMap (fwd.accesses tid) = fwd.toFlashBlock.loadQ tid := by
    unfold loadQ FlashBlock.loadQ
    rw [List.flatMap_map, List.map_eq_flatMap]
    rfl
  have tiles : ∀ kvTile, (fwd.loadKv kvTile tid).flatMap (fwd.accesses tid) =
      fwd.toFlashBlock.loadKv kvTile tid := by
    intro kvTile
    unfold loadKv FlashBlock.loadKv FlashBlock.loadTile
    rw [List.flatMap_append, List.flatMap_map, List.flatMap_map, List.map_eq_flatMap,
      List.map_eq_flatMap]
    rfl
  have scored : ∀ kvTile, (fwd.scores kvTile).flatMap (fwd.accesses tid) =
      fwd.toFlashBlock.scores kvTile tid := by
    intro kvTile
    unfold scores FlashBlock.scores
    rw [List.flatMap_map]
    rfl
  have weighed : fwd.softmax.flatMap (fwd.accesses tid) = fwd.toFlashBlock.output tid := by
    unfold softmax exponentials FlashBlock.output
    simp only [List.flatMap_append, List.flatMap_assoc, List.map_eq_flatMap, List.flatMap_cons,
      List.flatMap_nil, List.append_nil, List.nil_append, accesses]
    rfl
  unfold program FlashBlock.segments
  by_cases active : fwd.Active tid
  · rw [if_pos active, if_pos active, List.dropLast_concat, List.map_append, List.map_flatMap]
    simp only [List.map_cons, List.map_nil, loads, tiles, scored, weighed]
    rfl
  · rw [if_neg active, if_neg active]
    rfl

end FlashFwd

end AmpFormal.FlashAttnMachine
