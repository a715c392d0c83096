import Mathlib.Logic.Function.Basic
import VillasNode.Lib.Links

/-!
# The managed memory allocator

`lib/memory/managed.cpp`, with pointers as numbers. The block descriptors live
in the region itself. `block a` is the descriptor at address `a`. Sizes are
those of a 64-bit target.
-/

namespace VillasNode.Managed

def sizeofPointer : Nat := 8

/-- `struct memory_type`: six words. -/
def sizeofMemoryType : Nat := 48

/-- `struct memory_block`: two pointers, a length and a padded flag. -/
def sizeofMemoryBlock : Nat := 32

/-- `ALIGN` of the common submodule: round `x` up to the next multiple of `a`. -/
def align (x a : Nat) : Nat := (x + (a - 1)) / a * a

structure MemoryBlock where
  prev : Option Nat
  next : Option Nat
  /-- Without the descriptor itself. -/
  length : Nat
  used : Bool
deriving DecidableEq, Repr

/-- A region of `len` bytes at `ptr`, with its first block at `vd`. -/
structure MemoryType where
  ptr : Nat
  len : Nat
  vd : Nat
  block : Nat → MemoryBlock

structure MemoryAllocation where
  address : Nat
  alignment : Nat
  length : Nat
  block : Nat
deriving DecidableEq, Repr

namespace MemoryType

/-! ## Stores to a descriptor -/

def put (m : MemoryType) (a : Nat) (b : MemoryBlock) : MemoryType :=
  { m with block := Function.update m.block a b }

def setPrev (m : MemoryType) (a : Nat) (p : Option Nat) : MemoryType :=
  m.put a { m.block a with prev := p }

def setNext (m : MemoryType) (a : Nat) (n : Option Nat) : MemoryType :=
  m.put a { m.block a with next := n }

def setLength (m : MemoryType) (a : Nat) (l : Nat) : MemoryType :=
  m.put a { m.block a with length := l }

def setUsed (m : MemoryType) (a : Nat) (u : Bool) : MemoryType :=
  m.put a { m.block a with used := u }

def setPrev? (m : MemoryType) (p : Option Nat) (v : Nat) : MemoryType :=
  match p with
  | some a => m.setPrev a (some v)
  | none => m

def stop (m : MemoryType) : Nat := m.ptr + m.len

/-- Where the slot of the block at `b` ends: at the next header, or at the end of the region. -/
def slotEnd (m : MemoryType) (b : Nat) : Nat := (m.block b).next.getD m.stop

/-- The blocks in list order. No list of headers inside the region is longer than the region. -/
def blocks (m : MemoryType) : List Nat :=
  Links.walk (fun a => (m.block a).next) m.len (some m.vd)

end MemoryType

/-! ## `memory_managed` -/

/-- `garbage` is what the region held before. -/
def memoryManaged (garbage : Nat → MemoryBlock) (ptr len : Nat) : Option MemoryType :=
  if len < sizeofMemoryType + sizeofMemoryBlock then none
  else
    let mb := ptr + align sizeofMemoryType sizeofPointer
    let cptr := mb + align sizeofMemoryBlock sizeofPointer
    let m : MemoryType := { ptr, len, vd := mb, block := garbage }
    some (m.put mb { prev := none, next := none, used := false, length := len - (cptr - ptr) })

/-! ## `memory_managed_alloc` -/

def alignmentGap (alignment b : Nat) : Nat :=
  let rem := (b + sizeofMemoryBlock) % alignment
  if rem ≠ 0 then alignment - rem else 0

/-- The tests of the loop body. `none` is a `continue`, otherwise the block is taken with this gap. -/
def fit (m : MemoryType) (len alignment b : Nat) : Option Nat :=
  if (m.block b).used then none
  else
    let avail := (m.block b).length
    let gap := alignmentGap alignment b
    if gap > avail then none
    else if avail - gap ≥ len then some gap
    else none

/-- The block at `b` is taken: cut off the gap in front of it if another block fits there.
Returns the descriptor of the block that is handed out. -/
def splitFront (m : MemoryType) (len b gap : Nat) : MemoryType × Nat :=
  if gap > sizeofMemoryBlock then
    let newblock := b + sizeofMemoryBlock + gap - sizeofMemoryBlock
    let m := m.setLength b (gap - sizeofMemoryBlock)
    let m := m.put newblock { prev := some b, next := (m.block b).next, length := len, used := false }
    -- The old successor still points back to `b`.
    (m.setNext b (some newblock), newblock)
  else (m.setLength b (len + gap), b)

def splitTail (m : MemoryType) (len block cptr avail : Nat) : MemoryType :=
  if avail > len + sizeofMemoryBlock then
    let newblock := cptr + len
    let m := m.put newblock
      { prev := some block, next := (m.block block).next, used := false
        length := avail - len - sizeofMemoryBlock }
    let m := m.setNext block (some newblock)
    m.setPrev? (m.block newblock).next newblock
  else m.setLength block avail

/-- The rest of the loop body, for a block that fits. -/
def carve (m : MemoryType) (len alignment b gap : Nat) : MemoryType × MemoryAllocation :=
  let cptr := b + sizeofMemoryBlock + gap
  let avail := (m.block b).length - gap
  let (m, block) := splitFront m len b gap
  let m := splitTail m len block cptr avail
  (m.setUsed block true, { address := cptr, alignment, length := len, block })

def firstFit (m : MemoryType) (len alignment : Nat) : Option (Nat × Nat) :=
  m.blocks.findSome? fun b => (fit m len alignment b).map fun gap => (b, gap)

def memoryManagedAlloc (m : MemoryType) (len alignment : Nat) :
    Option (MemoryType × MemoryAllocation) :=
  (firstFit m len alignment).map fun (b, gap) => carve m len alignment b gap

/-! ## `memory_managed_free` -/

/-- The block behind a link, if there is one and it is not used. -/
def unused (m : MemoryType) (link : Option Nat) : Option Nat :=
  link.filter fun a => !(m.block a).used

def memoryManagedFree (m : MemoryType) (ma : MemoryAllocation) : MemoryType :=
  let b := ma.block
  let block := m.block b
  match unused m block.prev, unused m block.next with
  | some p, some n =>
    let prev := m.block p
    let next := m.block n
    let m := m.setLength p (prev.length + (block.length + next.length + 2 * sizeofMemoryBlock))
    (m.setNext p next.next).setPrev? next.next p
  | some p, none =>
    let m := m.setLength p ((m.block p).length + (block.length + sizeofMemoryBlock))
    (m.setNext p block.next).setPrev? block.next p
  | none, some n =>
    let next := m.block n
    let m := m.setLength b (block.length + (next.length + sizeofMemoryBlock))
    -- `used` stays as it is.
    (m.setNext b next.next).setPrev? next.next b
  | none, none => m.setUsed b false

/-! ## Histories -/

/-- The region and the allocations that are live in it. -/
structure Heap where
  mt : MemoryType
  live : List MemoryAllocation

inductive Op where
  | alloc (len alignment : Nat)
  | free (ma : MemoryAllocation)
deriving DecidableEq, Repr

/-- A caller asks for an alignment of at least 1 and frees only what is live. -/
def step (s : Heap) : Op → Option Heap
  | .alloc len alignment =>
    if alignment = 0 then none
    else
      match memoryManagedAlloc s.mt len alignment with
      | some (mt, ma) => some { mt, live := ma :: s.live }
      | none => some s
  | .free ma =>
    if ma ∈ s.live then some { mt := memoryManagedFree s.mt ma, live := s.live.erase ma } else none

/-! ## Fields after a store -/

namespace MemoryType

variable (m : MemoryType) (a x l : Nat) (b : MemoryBlock) (p : Option Nat) (u : Bool)

@[simp] theorem put_block : (m.put a b).block x = if x = a then b else m.block x := by
  simp [put, Function.update_apply]
@[simp] theorem put_ptr : (m.put a b).ptr = m.ptr := rfl
@[simp] theorem put_len : (m.put a b).len = m.len := rfl
@[simp] theorem put_vd : (m.put a b).vd = m.vd := rfl

@[simp] theorem setPrev_block :
    (m.setPrev a p).block x = if x = a then { m.block x with prev := p } else m.block x := by
  by_cases h : x = a <;> simp [setPrev, h]
@[simp] theorem setNext_block :
    (m.setNext a p).block x = if x = a then { m.block x with next := p } else m.block x := by
  by_cases h : x = a <;> simp [setNext, h]
@[simp] theorem setLength_block :
    (m.setLength a l).block x = if x = a then { m.block x with length := l } else m.block x := by
  by_cases h : x = a <;> simp [setLength, h]
@[simp] theorem setUsed_block :
    (m.setUsed a u).block x = if x = a then { m.block x with used := u } else m.block x := by
  by_cases h : x = a <;> simp [setUsed, h]
@[simp] theorem setPrev?_block :
    (m.setPrev? p l).block x =
      if some x = p then { m.block x with prev := some l } else m.block x := by
  cases p <;> simp [setPrev?]

@[simp] theorem setPrev_ptr : (m.setPrev a p).ptr = m.ptr := rfl
@[simp] theorem setPrev_len : (m.setPrev a p).len = m.len := rfl
@[simp] theorem setPrev_vd : (m.setPrev a p).vd = m.vd := rfl
@[simp] theorem setNext_ptr : (m.setNext a p).ptr = m.ptr := rfl
@[simp] theorem setNext_len : (m.setNext a p).len = m.len := rfl
@[simp] theorem setNext_vd : (m.setNext a p).vd = m.vd := rfl
@[simp] theorem setLength_ptr : (m.setLength a l).ptr = m.ptr := rfl
@[simp] theorem setLength_len : (m.setLength a l).len = m.len := rfl
@[simp] theorem setLength_vd : (m.setLength a l).vd = m.vd := rfl
@[simp] theorem setUsed_ptr : (m.setUsed a u).ptr = m.ptr := rfl
@[simp] theorem setUsed_len : (m.setUsed a u).len = m.len := rfl
@[simp] theorem setUsed_vd : (m.setUsed a u).vd = m.vd := rfl
@[simp] theorem setPrev?_ptr : (m.setPrev? p l).ptr = m.ptr := by cases p <;> rfl
@[simp] theorem setPrev?_len : (m.setPrev? p l).len = m.len := by cases p <;> rfl
@[simp] theorem setPrev?_vd : (m.setPrev? p l).vd = m.vd := by cases p <;> rfl

end MemoryType

end VillasNode.Managed
