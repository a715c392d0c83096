import Mathlib.Algebra.Group.Nat.Defs
import Mathlib.Logic.Function.Basic

/-!
# Samples and pools

`lib/sample.cpp` and `lib/pool.cpp`. A sample is a block of memory that is
named by its address. Blocks come from pools, are shared by reference counts
and go back to their pool with the last reference. What a block holds survives
its release: `sample_init` resets the length only.

The queue of a pool is used by one call at a time here, as a list.
-/

namespace VillasNode

abbrev SampleId := Nat

abbrev PoolId := Nat

abbrev Value := BitVec 64

structure Timespec where
  sec : BitVec 64
  nsec : BitVec 64
deriving DecidableEq

/-- What the holders of a sample read and write. -/
structure Payload where
  sequence : BitVec 64
  /-- `unsigned`, below `2 ^ 32`. -/
  length : Nat
  flags : BitVec 32
  /-- The address of the list of signal descriptors. -/
  signals : Nat
  origin : Timespec
  received : Timespec
  data : Nat → Value

def Payload.setData (s : Payload) (i : Nat) (v : Value) : Payload :=
  { s with data := Function.update s.data i v }

theorem setData_data (s : Payload) (i slot : Nat) (v : Value) :
    (s.setData i v).data slot = if slot = i then v else s.data slot :=
  Function.update_apply ..

/-! `enum class SampleFlags` -/

namespace SampleFlags

def hasTsOrigin : BitVec 32 := 1#32 <<< 0
def hasTsReceived : BitVec 32 := 1#32 <<< 1
def hasOffset : BitVec 32 := 1#32 <<< 2
def hasSequence : BitVec 32 := 1#32 <<< 3
def hasData : BitVec 32 := 1#32 <<< 4
def hasTs : BitVec 32 := hasTsOrigin ||| hasTsReceived
def isFirst : BitVec 32 := 1#32 <<< 16

end SampleFlags

structure Sample where
  payload : Payload
  capacity : Nat
  refcnt : Int
  /-- `sample_pool`. `none` for `SAMPLE_NON_POOL`. -/
  pool : Option PoolId

structure Pool where
  blocks : List SampleId
  /-- `(blocksz - sizeof(struct sample)) / sizeof(s->data[0])` -/
  capacity : Nat
  queueSize : Nat

structure Heap where
  samples : SampleId → Sample
  pools : PoolId → Pool
  free : PoolId → List SampleId

namespace Heap

def payload (h : Heap) (s : SampleId) : Payload := (h.samples s).payload

def setSample (h : Heap) (s : SampleId) (x : Sample) : Heap :=
  { h with samples := Function.update h.samples s x }

def setPayload (h : Heap) (s : SampleId) (x : Payload) : Heap :=
  h.setSample s { h.samples s with payload := x }

def setRefcnt (h : Heap) (s : SampleId) (n : Int) : Heap :=
  h.setSample s { h.samples s with refcnt := n }

def setFree (h : Heap) (p : PoolId) (free : List SampleId) : Heap :=
  { h with free := Function.update h.free p free }

/-- `queue_push` on the queue of the pool, which refuses when it is full. -/
def poolPut (h : Heap) (p : PoolId) (s : SampleId) : Heap :=
  if (h.free p).length < (h.pools p).queueSize then h.setFree p (h.free p ++ [s]) else h

/-- `pool_off` is set and `sample_init` is called. -/
def sampleInit (h : Heap) (p : PoolId) (s : SampleId) : Heap :=
  h.setSample s { payload := { h.payload s with length := 0 }, capacity := (h.pools p).capacity
                  refcnt := 1, pool := some p }

def sampleAlloc (h : Heap) (p : PoolId) : Option (Heap × SampleId) :=
  match h.free p with
  | [] => none
  | s :: free => some ((h.setFree p free).sampleInit p s, s)

/-- The blocks are as many as the pool has, up to `cnt`. -/
def sampleAllocMany (h : Heap) (p : PoolId) : Nat → Heap × List SampleId
  | 0 => (h, [])
  | cnt + 1 =>
    match h.sampleAlloc p with
    | none => (h, [])
    | some (h, s) =>
      let (h, smps) := h.sampleAllocMany p cnt
      (h, s :: smps)

def sampleFree (h : Heap) (s : SampleId) : Heap :=
  match (h.samples s).pool with
  | some p => h.poolPut p s
  | none => h

def sampleIncref (h : Heap) (s : SampleId) : Heap := h.setRefcnt s ((h.samples s).refcnt + 1)

def sampleDecref (h : Heap) (s : SampleId) : Heap :=
  let prev := (h.samples s).refcnt
  let h := h.setRefcnt s (prev - 1)
  if prev = 1 then h.sampleFree s else h

def sampleIncrefMany (h : Heap) (smps : List SampleId) : Heap := smps.foldl sampleIncref h

def sampleDecrefMany (h : Heap) (smps : List SampleId) : Heap := smps.foldl sampleDecref h

/-- What `sample_copy` leaves in a sample that held `dst`. -/
def copyPayload (capacity : Nat) (dst src : Payload) : Payload :=
  let length := min src.length capacity
  { src with length, data := fun i => if i < length then src.data i else dst.data i }

def sampleCopy (h : Heap) (dst src : SampleId) : Heap :=
  h.setPayload dst (copyPayload (h.samples dst).capacity (h.payload dst) (h.payload src))

def sampleClone (h : Heap) (orig : SampleId) : Option (Heap × SampleId) :=
  match (h.samples orig).pool with
  | none => none
  | some p =>
    match h.sampleAlloc p with
    | none => none
    | some (h, clone) => some (h.sampleCopy clone orig, clone)

def sampleCopyMany (h : Heap) (dsts srcs : List SampleId) : Heap :=
  (dsts.zip srcs).foldl (fun h x => h.sampleCopy x.1 x.2) h

/-- `sample_clone_many` of `srcs`, none for a count that is not positive. -/
def sampleCloneMany (h : Heap) (srcs : List SampleId) : Heap × List SampleId :=
  match srcs with
  | [] => (h, [])
  | src :: _ =>
    match (h.samples src).pool with
    | none => (h, [])
    | some p =>
      let (h, dsts) := h.sampleAllocMany p srcs.length
      (h.sampleCopyMany dsts srcs, dsts)

end Heap

end VillasNode
