import Mathlib.Algebra.Group.Nat.Defs
import Mathlib.Data.List.Range
import VillasNode.Lib.ByteMemory
import VillasNode.Lib.Runs

/-!
# Reading from a Comedi device

`comedi_read` of `lib/nodes/comedi.cpp` where it uses `read()`. The bytes of a
chunk that make no whole sample are moved to the beginning of the buffer, where
the next chunk goes too.
-/

namespace VillasNode

open ByteOrder ByteMemory Runs

/-- `bufptr` is an index into `buf`. -/
structure Comedi where
  buf : List Byte
  bufptr : Nat
  counter : Nat

namespace Comedi

/-- The fields of `comedi_direction` that reading depends on. `comedi_parse` refuses an empty list
of channels. -/
structure Direction where
  endian : Endian
  /-- Values are of type `lsampl_t` and not `sampl_t`. -/
  large : Bool
  chanlistLen : Nat
  bufferSize : Nat
  channels : 0 < chanlistLen

def Direction.sampleSize (d : Direction) : Nat := if d.large then 4 else 2

def Direction.villasSampleSize (d : Direction) : Nat := d.chanlistLen * d.sampleSize

/-- A sample before its values are converted to physical ones. -/
structure RawSample where
  sequence : Nat
  raws : List (BitVec 32)

inductive Outcome where
  | ret (r : Int)
  | thrown

/-- What the device and the calls before `read()` do. -/
inductive Device where
  | bufferError
  | selectFailed
  | timeout
  | otherFd
  | readFailed (again : Bool)
  | read (bytes : List Byte)

section
variable (d : Direction)

/-! ## The loops -/

def rawAt (buf : List Byte) (p : Nat) : BitVec 32 :=
  if d.large then ByteOrder.load d.endian 32 ((buf.drop p).take 4)
  else (ByteOrder.load d.endian 16 ((buf.drop p).take 2)).setWidth 32

def rawLoop : Nat → Comedi → Comedi × List (BitVec 32)
  | 0, c => (c, [])
  | si + 1, c =>
    let r := rawLoop si { c with bufptr := c.bufptr + d.sampleSize }
    (r.1, rawAt d c.buf c.bufptr :: r.2)

/-- The capacities of the samples to fill, and whether all were large enough. -/
def sampleLoop : List Nat → Comedi → Comedi × List RawSample × Bool
  | [], c => (c, [], true)
  | capacity :: smps, c =>
    let c := { c with counter := (c.counter + 1) % 2 ^ 64 }
    if capacity < d.chanlistLen then (c, [], false)
    else
      let (c', raws) := rawLoop d d.chanlistLen c
      let r := sampleLoop smps c'
      (r.1, ⟨c.counter / d.chanlistLen, raws⟩ :: r.2.1, r.2.2)

/-- The bytes that `read()` is asked for. -/
def requested (c : Comedi) (cnt : Nat) : Nat :=
  min (cnt * d.villasSampleSize % 2 ^ 64) (d.bufferSize - c.bufptr)

/-- Behind `read()`, which has put `bytes` into the buffer. -/
def handle (c : Comedi) (capacities : List Nat) (bytes : List Byte) :
    Comedi × Outcome × List RawSample :=
  let c := { c with buf := overwrite c.bufptr bytes c.buf }
  let available := bytes.length / d.sampleSize / d.chanlistLen
  let cnt := min capacities.length available
  match sampleLoop d (capacities.take cnt) c with
  | (c, _, false) => (c, .thrown, [])
  | (c, smps, true) =>
    let left := bytes.length - cnt * d.villasSampleSize
    ({ c with
        buf := if 0 < left then overwrite 0 ((c.buf.drop c.bufptr).take left) c.buf else c.buf
        bufptr := 0 }, .ret cnt, smps)

def comediRead (c : Comedi) (capacities : List Nat) : Device → Comedi × Outcome × List RawSample
  | .bufferError => (c, .thrown, [])
  | .selectFailed => (c, .thrown, [])
  | .timeout => (c, .ret 0, [])
  | .otherFd => (c, .ret (-1), [])
  | .readFailed again => (c, if again then .thrown else .ret 0, [])
  | .read bytes => if bytes = [] then (c, .ret 0, []) else handle d c capacities bytes

/-! ## The specification -/

/-- How a call meets the device. A chunk is as long as the device likes, up to what is requested. -/
inductive Ready where
  | bufferError
  | selectFailed
  | timeout
  | otherFd
  | readFailed (again : Bool)
  | chunk (length : Nat)

structure Call where
  capacities : List Nat
  ready : Ready

/-- The bytes that the device has given and the samples that were delivered. -/
structure Run where
  node : Comedi
  taken : Nat
  delivered : List RawSample

def bytesFrom (stream : Nat → Byte) (p n : Nat) : List Byte :=
  (List.range n).map fun i => stream (p + i)

/-- The length of the chunk, for a node with so many bytes to request. -/
def Call.got (a : Call) (limit : Nat) : Nat :=
  match a.ready with
  | .chunk length => min length limit
  | _ => 0

def device (stream : Nat → Byte) (s : Run) (a : Call) : Device :=
  match a.ready with
  | .bufferError => .bufferError
  | .selectFailed => .selectFailed
  | .timeout => .timeout
  | .otherFd => .otherFd
  | .readFailed again => .readFailed again
  | .chunk _ => .read (bytesFrom stream s.taken (a.got (requested d s.node a.capacities.length)))

def step (stream : Nat → Byte) (s : Run) (a : Call) : Run :=
  let r := comediRead d s.node a.capacities (device d stream s a)
  ⟨r.1, s.taken + a.got (requested d s.node a.capacities.length), s.delivered ++ r.2.2⟩

def start (buf : List Byte) : Run := ⟨⟨buf, 0, 0⟩, 0, []⟩

/-- The values of a sample from the place `p` of the stream on. -/
def rawsFrom (stream : Nat → Byte) (p : Nat) : List (BitVec 32) :=
  (List.range d.chanlistLen).map fun si =>
    rawAt d (bytesFrom stream (p + si * d.sampleSize) 4) 0

/-- All whole samples of the stream are delivered, and their numbers are consecutive. -/
structure Reassembled (stream : Nat → Byte) (s : Run) : Prop where
  raws : s.delivered.map (·.raws) =
    (List.range (s.taken / d.villasSampleSize)).map fun j => rawsFrom d stream (j * d.villasSampleSize)
  sequence : (s.delivered.map (·.sequence)).IsChain fun a b => b = (a + 1) % 2 ^ 64

/-- The bytes that a node with an empty buffer takes. -/
def Call.takes (a : Call) : Nat := a.got (requested d ⟨[], 0, 0⟩ a.capacities.length)

/-- The chunk completes no sample, or no byte of one came before it and there is room in all samples
that it fills. -/
def Aligned (taken : Nat) (a : Call) : Prop :=
  taken % d.villasSampleSize + a.takes d < d.villasSampleSize ∨
    (taken % d.villasSampleSize = 0 ∧
      ∀ capacity ∈ a.capacities.take (a.takes d / d.villasSampleSize), d.chanlistLen ≤ capacity)

/-- So many samples have different numbers. -/
def Numbered (delivered : Nat) : Prop :=
  d.chanlistLen = 1 ∨ delivered ≤ 1 ∨ (d.chanlistLen = 2 ∧ delivered ≤ 2)

end

/-! ## The buffer -/

section
variable {d : Direction} {stream : Nat → Byte} {p t n m : Nat}

theorem sampleSize_pos (d : Direction) : 0 < d.sampleSize ∧ d.sampleSize ≤ 4 := by
  rw [Direction.sampleSize]
  split <;> decide

theorem villasSampleSize_pos (d : Direction) : 0 < d.villasSampleSize :=
  Nat.mul_pos d.channels (sampleSize_pos d).1

@[simp]
theorem bytesFrom_length (stream : Nat → Byte) (p n : Nat) : (bytesFrom stream p n).length = n := by
  rw [bytesFrom, List.length_map, List.length_range]

theorem bytesFrom_slice (hp : p + n ≤ m) :
    ((bytesFrom stream t m).drop p).take n = bytesFrom stream (t + p) n := by
  apply List.ext_getElem
  · rw [List.length_take, List.length_drop, bytesFrom_length, bytesFrom_length]
    omega
  · intro i _ _
    simp [bytesFrom, Nat.add_assoc]

theorem rawAt_congr {buf buf' : List Byte} {p' : Nat}
    (heq : (buf.drop p).take d.sampleSize = (buf'.drop p').take d.sampleSize) :
    rawAt d buf p = rawAt d buf' p' := by
  cases hlarge : d.large with
  | true =>
    simp only [Direction.sampleSize, hlarge, if_true] at heq
    rw [rawAt, rawAt, if_pos hlarge, if_pos hlarge, heq]
  | false =>
    simp only [Direction.sampleSize, hlarge, Bool.false_eq_true, if_false] at heq
    rw [rawAt, rawAt, if_neg (by simp [hlarge]), if_neg (by simp [hlarge]), heq]

theorem rawAt_read {buf : List Byte} (hp : p + d.sampleSize ≤ m) :
    rawAt d (overwrite 0 (bytesFrom stream t m) buf) p =
      rawAt d (bytesFrom stream (t + p) 4) 0 := by
  apply rawAt_congr
  have hbuf : ((overwrite 0 (bytesFrom stream t m) buf).drop p).take d.sampleSize =
      ((bytesFrom stream t m).drop p).take d.sampleSize := by
    rw [overwrite, List.take_zero, List.nil_append, List.drop_append_of_le_length, List.take_append_of_le_length]
    · rw [List.length_drop, bytesFrom_length]
      omega
    · rw [bytesFrom_length]
      omega
  rw [hbuf, bytesFrom_slice hp, bytesFrom_slice (by rw [Nat.zero_add]; exact (sampleSize_pos d).2)]
  rfl

end

/-! ## The loops -/

section
variable {d : Direction} {c : Comedi} {capacities : List Nat}

theorem rawLoop_eq (k : Nat) (c : Comedi) :
    rawLoop d k c = ({ c with bufptr := c.bufptr + k * d.sampleSize },
      (List.range k).map fun si => rawAt d c.buf (c.bufptr + si * d.sampleSize)) := by
  induction k generalizing c with
  | zero => simp [rawLoop]
  | succ k ih =>
    rw [rawLoop, ih, List.range_succ_eq_map, List.map_cons, List.map_map]
    simp only [Nat.zero_mul, Nat.add_zero, Nat.add_assoc, Nat.succ_mul, Prod.mk.injEq,
      Comedi.mk.injEq, List.cons.injEq, true_and, and_true]
    refine ⟨by rw [Nat.add_comm d.sampleSize], List.map_congr_left fun si _ => ?_⟩
    simp only [Function.comp_apply, Nat.succ_mul, Nat.add_comm d.sampleSize]

/-- The values of the `i`-th sample from `bufptr` on. -/
def rawsAt (d : Direction) (c : Comedi) (i : Nat) : List (BitVec 32) :=
  (List.range d.chanlistLen).map fun si =>
    rawAt d c.buf (c.bufptr + i * d.villasSampleSize + si * d.sampleSize)

/-- The node behind so many samples. -/
def behind (d : Direction) (c : Comedi) (k : Nat) : Comedi :=
  ⟨c.buf, c.bufptr + k * d.villasSampleSize, (c.counter + k) % 2 ^ 64⟩

theorem sampleLoop_cons {capacity : Nat} (hcapacity : d.chanlistLen ≤ capacity) :
    sampleLoop d (capacity :: capacities) c =
      ((sampleLoop d capacities (behind d c 1)).1,
        ⟨(c.counter + 1) % 2 ^ 64 / d.chanlistLen, rawsAt d c 0⟩ ::
          (sampleLoop d capacities (behind d c 1)).2.1,
        (sampleLoop d capacities (behind d c 1)).2.2) := by
  rw [sampleLoop, if_neg (Nat.not_lt.mpr hcapacity)]
  simp only [rawLoop_eq, behind, rawsAt, Nat.one_mul, Nat.zero_mul, Nat.add_zero,
    Direction.villasSampleSize]

theorem sampleLoop_room (hroom : ∀ capacity ∈ capacities, d.chanlistLen ≤ capacity)
    (hcounter : c.counter < 2 ^ 64) :
    sampleLoop d capacities c = (behind d c capacities.length,
      (List.range capacities.length).map fun i =>
        ⟨(c.counter + i + 1) % 2 ^ 64 / d.chanlistLen, rawsAt d c i⟩, true) := by
  induction capacities generalizing c with
  | nil =>
    rw [List.length_nil, behind, Nat.zero_mul, Nat.add_zero, Nat.add_zero, Nat.mod_eq_of_lt hcounter]
    rfl
  | cons capacity smps ih =>
    have hrest := fun cap hmem => hroom cap (List.mem_cons_of_mem capacity hmem)
    have hnext : (behind d c 1).counter < 2 ^ 64 := Nat.mod_lt _ (by decide)
    have hraws (i : Nat) : rawsAt d (behind d c 1) i = rawsAt d c (i + 1) := by
      apply List.map_congr_left
      intro si _
      congr 1
      simp only [behind, Nat.succ_mul]
      omega
    rw [sampleLoop_cons (hroom capacity (by simp)), ih hrest hnext, List.length_cons,
      List.range_succ_eq_map, List.map_cons, List.map_map]
    refine Prod.ext ?_ (Prod.ext ?_ rfl)
    · simp only [behind, Nat.mod_add_mod, Nat.succ_mul, Comedi.mk.injEq, true_and]
      exact ⟨by omega, by rw [Nat.add_assoc, Nat.add_comm 1]⟩
    · refine congrArg (List.cons _) (List.map_congr_left fun i _ => ?_)
      simp only [Function.comp_apply, hraws, RawSample.mk.injEq, and_true]
      simp only [behind, Nat.add_assoc, Nat.mod_add_mod, Nat.succ_eq_add_one, Nat.add_left_comm 1]

theorem sampleLoop_full (hfull : ∃ capacity ∈ capacities, capacity < d.chanlistLen) :
    (sampleLoop d capacities c).2.2 = false := by
  induction capacities generalizing c with
  | nil =>
    obtain ⟨capacity, hmem, -⟩ := hfull
    cases hmem
  | cons capacity smps ih =>
    rw [sampleLoop]
    by_cases hhead : capacity < d.chanlistLen
    · rw [if_pos hhead]
    · rw [if_neg hhead]
      apply ih
      obtain ⟨cap, hmem, hlt⟩ := hfull
      rcases List.mem_cons.mp hmem with rfl | hmem
      · exact absurd hlt hhead
      · exact ⟨cap, hmem, hlt⟩

end

/-! ## A call -/

section
variable {d : Direction} {stream : Nat → Byte} {c : Comedi} {capacities : List Nat} {t m : Nat}
  {s : Run} {a : Call}

theorem rawsAt_read {buf : List Byte} {i counter : Nat} (hi : i < m / d.villasSampleSize) :
    rawsAt d ⟨overwrite 0 (bytesFrom stream t m) buf, 0, counter⟩ i =
      rawsFrom d stream (t + i * d.villasSampleSize) := by
  apply List.map_congr_left
  intro si hsi
  rw [List.mem_range] at hsi
  have hvalue : (si + 1) * d.sampleSize ≤ d.villasSampleSize := Nat.mul_le_mul_right _ hsi
  have hsample : (i + 1) * d.villasSampleSize ≤ m :=
    (Nat.mul_le_mul_right _ hi).trans (Nat.div_mul_le_self _ _)
  rw [Nat.succ_mul] at hvalue hsample
  rw [rawAt_read (by simp only; omega)]
  congr 2
  simp only
  omega

theorem handle_room (hbufptr : c.bufptr = 0) (hcounter : c.counter < 2 ^ 64)
    (hle : m / d.villasSampleSize ≤ capacities.length)
    (hroom : ∀ capacity ∈ capacities.take (m / d.villasSampleSize), d.chanlistLen ≤ capacity) :
    ∃ c' r, handle d c capacities (bytesFrom stream t m) = (c', r,
        (List.range (m / d.villasSampleSize)).map fun i =>
          ⟨(c.counter + i + 1) % 2 ^ 64 / d.chanlistLen,
            rawsFrom d stream (t + i * d.villasSampleSize)⟩) ∧
      c'.bufptr = 0 ∧ c'.counter = (c.counter + m / d.villasSampleSize) % 2 ^ 64 := by
  have havailable : m / d.sampleSize / d.chanlistLen = m / d.villasSampleSize := by
    rw [Nat.div_div_eq_div_mul, Direction.villasSampleSize, Nat.mul_comm]
  have hlen : (capacities.take (m / d.villasSampleSize)).length = m / d.villasSampleSize :=
    List.length_take_of_le hle
  have hloop := @sampleLoop_room d ⟨overwrite 0 (bytesFrom stream t m) c.buf, 0, c.counter⟩ _ hroom
    hcounter
  rw [hlen] at hloop
  rw [handle]
  simp only [bytesFrom_length, havailable, Nat.min_eq_right hle, hbufptr, hloop]
  refine ⟨_, _, Prod.ext rfl (Prod.ext rfl ?_), rfl, rfl⟩
  apply List.map_congr_left
  intro i hi
  rw [List.mem_range] at hi
  rw [rawsAt_read hi]

theorem handle_full (hle : m / d.villasSampleSize ≤ capacities.length)
    (hfull : ∃ capacity ∈ capacities.take (m / d.villasSampleSize), capacity < d.chanlistLen) :
    (handle d c capacities (bytesFrom stream t m)).2.2 = [] := by
  have havailable : m / d.sampleSize / d.chanlistLen = m / d.villasSampleSize := by
    rw [Nat.div_div_eq_div_mul, Direction.villasSampleSize, Nat.mul_comm]
  rw [handle]
  simp only [bytesFrom_length, havailable, Nat.min_eq_right hle]
  have hfalse := @sampleLoop_full d
    { c with buf := overwrite c.bufptr (bytesFrom stream t m) c.buf } _ hfull
  split
  · rfl
  · next heq =>
    rw [heq] at hfalse
    cases hfalse

theorem takes_le (d : Direction) (a : Call) :
    a.takes d / d.villasSampleSize ≤ a.capacities.length := by
  apply Nat.div_le_of_le_mul
  rw [Call.takes, Call.got, Nat.mul_comm]
  cases a.ready with
  | chunk length =>
    exact (Nat.min_le_right _ _).trans ((Nat.min_le_left _ _).trans (Nat.mod_le _ _))
  | _ => exact Nat.zero_le _

theorem got_eq (hbufptr : s.node.bufptr = 0) :
    a.got (requested d s.node a.capacities.length) = a.takes d := by
  rw [Call.takes, requested, requested, hbufptr]

theorem step_idle (hbufptr : s.node.bufptr = 0) (hm : a.takes d = 0) : step d stream s a = s := by
  rw [step, device, got_eq hbufptr, hm]
  cases a.ready <;> simp [comediRead, bytesFrom]

theorem step_chunk (hbufptr : s.node.bufptr = 0) (hm : 0 < a.takes d) :
    step d stream s a =
      ⟨(handle d s.node a.capacities (bytesFrom stream s.taken (a.takes d))).1,
        s.taken + a.takes d,
        s.delivered ++ (handle d s.node a.capacities (bytesFrom stream s.taken (a.takes d))).2.2⟩ := by
  have hsome : bytesFrom stream s.taken (a.takes d) ≠ [] := by
    rw [← List.length_pos_iff, bytesFrom_length]
    exact hm
  have hchunk : ∃ length, a.ready = .chunk length := by
    rw [Call.takes, Call.got] at hm
    cases hready : a.ready with
    | chunk length => exact ⟨length, rfl⟩
    | _ => simp [hready] at hm
  obtain ⟨length, hready⟩ := hchunk
  rw [step, device, hready, got_eq hbufptr, comediRead, if_neg hsome]

/-- All that was taken is delivered in whole samples, and the next chunk goes to the beginning of
the buffer. -/
structure Inv (d : Direction) (stream : Nat → Byte) (s : Run) (t : Nat) : Prop where
  bufptr : s.node.bufptr = 0
  taken : s.taken = t
  counter : s.node.counter = t / d.villasSampleSize % 2 ^ 64
  delivered : s.delivered = (List.range (t / d.villasSampleSize)).map fun j =>
    ⟨(j + 1) % 2 ^ 64 / d.chanlistLen, rawsFrom d stream (j * d.villasSampleSize)⟩

theorem Aligned.div (hal : Aligned d t a) :
    (t + a.takes d) / d.villasSampleSize = t / d.villasSampleSize + a.takes d / d.villasSampleSize := by
  have hpos := villasSampleSize_pos d
  have hsplit : t + a.takes d = d.villasSampleSize * (t / d.villasSampleSize) +
      (t % d.villasSampleSize + a.takes d) := by
    rw [← Nat.add_assoc, Nat.div_add_mod]
  rw [hsplit, Nat.mul_add_div hpos]
  obtain hnone | ⟨hstart, -⟩ := hal
  · rw [Nat.div_eq_of_lt hnone, Nat.div_eq_of_lt (a := a.takes d) (by omega)]
  · rw [hstart, Nat.zero_add]

theorem inv_step (hinv : Inv d stream s t) (hal : Aligned d t a) :
    Inv d stream (step d stream s a) (t + a.takes d) := by
  obtain ⟨hbufptr, rfl, hcounter, hdelivered⟩ := hinv
  obtain hm | hm := Nat.eq_zero_or_pos (a.takes d)
  · rw [step_idle hbufptr hm, hm, Nat.add_zero]
    exact ⟨hbufptr, rfl, hcounter, hdelivered⟩
  · have hroom : ∀ capacity ∈ a.capacities.take (a.takes d / d.villasSampleSize),
        d.chanlistLen ≤ capacity := by
      obtain hnone | ⟨-, hroom⟩ := hal
      · rw [Nat.div_eq_of_lt (by omega), List.take_zero]
        exact nofun
      · exact hroom
    obtain ⟨c', r, hhandle, hbufptr', hcounter'⟩ := @handle_room d stream s.node a.capacities s.taken
      (a.takes d) hbufptr (by rw [hcounter]; exact Nat.mod_lt _ (by decide)) (takes_le d a) hroom
    rw [step_chunk hbufptr hm, hhandle]
    refine ⟨hbufptr', rfl, ?_, ?_⟩
    · rw [hcounter', hcounter, hal.div, Nat.mod_add_mod]
    · rw [hal.div, List.range_add, List.map_append, List.map_map, hdelivered]
      refine congrArg (_ ++ ·) (List.map_congr_left fun i hi => ?_)
      rw [List.mem_range] at hi
      obtain hnone | ⟨hstart, -⟩ := hal
      · rw [Nat.div_eq_of_lt (by omega)] at hi
        exact absurd hi (Nat.not_lt_zero i)
      · have htaken : s.taken = s.taken / d.villasSampleSize * d.villasSampleSize :=
          (Nat.div_mul_cancel (Nat.dvd_of_mod_eq_zero hstart)).symm
        have hplace : s.taken + i * d.villasSampleSize =
            (s.taken / d.villasSampleSize + i) * d.villasSampleSize := by
          rw [Nat.add_mul, ← htaken]
        have hnumber : (s.node.counter + i + 1) % 2 ^ 64 =
            (s.taken / d.villasSampleSize + i + 1) % 2 ^ 64 := by
          rw [hcounter, Nat.add_assoc, Nat.mod_add_mod, Nat.add_assoc]
        simp only [Function.comp_apply, hplace, hnumber]

theorem sequence_iff (hinv : Inv d stream s t) :
    ((s.delivered.map (·.sequence)).IsChain fun a b => b = (a + 1) % 2 ^ 64) ↔
      Numbered d (t / d.villasSampleSize) := by
  rw [hinv.delivered, List.map_map, List.isChain_map, List.isChain_range, Numbered]
  generalize t / d.villasSampleSize = k
  have hpos := d.channels
  simp only [Function.comp_apply]
  constructor
  · intro hchain
    by_contra hnot
    obtain ⟨hone, hnot⟩ := not_or.mp hnot
    obtain ⟨hmany, htwo⟩ := not_or.mp hnot
    have hfirst := hchain 0 (by omega)
    by_cases hlen : d.chanlistLen = 2
    · have hsecond := hchain 1 (by omega)
      rw [hlen] at hsecond
      cases hsecond
    · rw [Nat.div_eq_of_lt (show (0 + 1) % 2 ^ 64 < d.chanlistLen by omega),
        Nat.div_eq_of_lt (show (Nat.succ 0 + 1) % 2 ^ 64 < d.chanlistLen by omega)] at hfirst
      cases hfirst
  · rintro (hone | hfew | ⟨hlen, hfew⟩) m hm
    · rw [hone, Nat.div_one, Nat.div_one, Nat.mod_add_mod]
    · omega
    · have hzero : m = 0 := by omega
      rw [hlen, hzero]
      rfl

theorem reassembled_iff_numbered (hinv : Inv d stream s t) :
    Reassembled d stream s ↔ Numbered d (t / d.villasSampleSize) := by
  rw [← sequence_iff hinv]
  refine ⟨fun hall => hall.sequence, fun hchain => ⟨?_, hchain⟩⟩
  rw [hinv.delivered, hinv.taken, List.map_map]
  rfl

/-! ## Streams that tell places apart -/

/-- A single byte that is not 0. -/
def mark (p : Nat) : Nat → Byte := fun i => if i = p then 1 else 0

theorem rawsFrom_mark {p q : Nat} (hlt : p < q) :
    rawsFrom d (mark p) p ≠ rawsFrom d (mark p) q := by
  intro heq
  have hhead := congrArg (·[0]?) heq
  simp only [rawsFrom, List.getElem?_map, List.getElem?_range d.channels, Option.map_some,
    Nat.zero_mul, Nat.add_zero, Option.some.injEq] at hhead
  have hmarked : bytesFrom (mark p) p 4 = [1, 0, 0, 0] := by
    simp [bytesFrom, mark, List.range_succ]
  have hzeros : bytesFrom (mark p) q 4 = [0, 0, 0, 0] := by
    simp only [bytesFrom, mark, List.range_succ, List.range_zero, List.nil_append, List.cons_append,
      List.map_cons, List.map_nil]
    rw [if_neg (by omega), if_neg (by omega), if_neg (by omega), if_neg (by omega)]
  rw [hmarked, hzeros, rawAt, rawAt] at hhead
  revert hhead
  cases d.large <;> cases d.endian <;> decide

theorem not_reassembled {s : (Nat → Byte) → Run} (hinv : ∀ stream, Inv d stream (s stream) t)
    (hal : ¬ Aligned d t a) :
    ∃ stream, ¬ Reassembled d stream (step d stream (s stream) a) := by
  have hpos := villasSampleSize_pos d
  refine ⟨mark (t / d.villasSampleSize * d.villasSampleSize), fun hall => ?_⟩
  obtain ⟨hbufptr, htaken, hcounter, hdelivered⟩ :=
    hinv (mark (t / d.villasSampleSize * d.villasSampleSize))
  generalize hstream : mark (t / d.villasSampleSize * d.villasSampleSize) = stream at *
  obtain ⟨hsome, hcause⟩ := not_or.mp hal
  have hm : 0 < a.takes d := by
    have hlt := Nat.mod_lt t hpos
    omega
  have hmore : t / d.villasSampleSize < (t + a.takes d) / d.villasSampleSize := by
    rw [Nat.lt_div_iff_mul_lt hpos]
    have hsplit := Nat.div_add_mod t d.villasSampleSize
    rw [Nat.mul_comm] at hsplit
    omega
  have hraws := hall.raws
  rw [step_chunk hbufptr hm, htaken, List.map_append, hdelivered] at hraws
  have hplace := congrArg (·[t / d.villasSampleSize]?) hraws
  simp only [List.getElem?_map, List.getElem?_range hmore, Option.map_some] at hplace
  rw [List.getElem?_append_right (by simp)] at hplace
  simp only [List.length_map, List.length_range, Nat.sub_self] at hplace
  by_cases hroom : ∀ capacity ∈ a.capacities.take (a.takes d / d.villasSampleSize),
      d.chanlistLen ≤ capacity
  · have hshift : t % d.villasSampleSize ≠ 0 := fun hzero => hcause ⟨hzero, hroom⟩
    obtain ⟨c', r, hhandle, -, -⟩ := @handle_room d stream (s stream).node a.capacities t
      (a.takes d) hbufptr (by rw [hcounter]; exact Nat.mod_lt _ (by decide)) (takes_le d a) hroom
    rw [hhandle] at hplace
    obtain hnone | hmany := Nat.eq_zero_or_pos (a.takes d / d.villasSampleSize)
    · simp [hnone] at hplace
    · simp only [List.map_map, List.getElem?_map, List.getElem?_range hmany, Option.map_some,
        Function.comp_apply, Nat.zero_mul, Nat.add_zero, Option.some.injEq] at hplace
      rw [← hstream] at hplace
      have hsplit := Nat.div_add_mod t d.villasSampleSize
      rw [Nat.mul_comm] at hsplit
      exact rawsFrom_mark (by omega) hplace.symm
  · push Not at hroom
    rw [handle_full (takes_le d a) hroom] at hplace
    cases hplace

end

theorem inv_start (d : Direction) (stream : Nat → Byte) (buf : List Byte) :
    Inv d stream (start buf) 0 := by
  refine ⟨rfl, rfl, ?_, ?_⟩
  · rw [Nat.zero_div]
    rfl
  · rw [Nat.zero_div]
    rfl

theorem along_reassembled_iff {d : Direction} {s : (Nat → Byte) → Run} {t : Nat}
    (hinv : ∀ stream, Inv d stream (s stream) t) (calls : List Call) :
    (∀ stream, Along (fun s a => some (step d stream s a))
        (fun s a => Reassembled d stream (step d stream s a)) (s stream) calls) ↔
      Along (fun t a => some (t + a.takes d))
        (fun t a => Aligned d t a ∧ Numbered d ((t + a.takes d) / d.villasSampleSize)) t calls := by
  induction calls generalizing s t with
  | nil => exact iff_of_true (fun _ => trivial) trivial
  | cons a calls ih =>
    simp only [Along, Option.some.injEq, forall_eq']
    constructor
    · intro hall
      have hal : Aligned d t a := by
        by_contra hal
        obtain ⟨stream, hno⟩ := not_reassembled hinv hal
        exact hno (hall stream).1
      have hnext := fun stream => inv_step (hinv stream) hal
      refine ⟨⟨hal, ?_⟩, (ih hnext).mp fun stream => (hall stream).2⟩
      exact (reassembled_iff_numbered (hnext fun _ => 0)).mp (hall fun _ => 0).1
    · rintro ⟨⟨hal, hnumbered⟩, hrest⟩ stream
      have hnext := fun stream => inv_step (hinv stream) hal
      exact ⟨(reassembled_iff_numbered (hnext stream)).mpr hnumbered, (ih hnext).mpr hrest stream⟩

/-- For every device and all calls, however the stream is cut into chunks: every stream is
reassembled, at every call, if and only if every chunk is aligned and the samples so far have
different numbers. -/
theorem reassembled_iff (d : Direction) (buf : List Byte) (calls : List Call) :
    (∀ stream, Along (fun s a => some (step d stream s a))
        (fun s a => Reassembled d stream (step d stream s a)) (start buf) calls) ↔
      Along (fun t a => some (t + a.takes d))
        (fun t a => Aligned d t a ∧ Numbered d ((t + a.takes d) / d.villasSampleSize)) 0 calls :=
  along_reassembled_iff (fun stream => inv_start d stream buf) calls

def oneChannel : Direction := ⟨.little, false, 1, 8, by decide⟩

def threeBytes : Call := ⟨[1, 1], .chunk 3⟩

/-- Six bytes are three values, of which two are delivered. -/
theorem not_reassembled_three :
    ¬ Along (fun s a => some (step oneChannel (fun i => i) s a))
      (fun s a => Reassembled oneChannel (fun i => i) (step oneChannel (fun i => i) s a))
      (start (List.replicate 8 0)) [threeBytes, threeBytes] := by
  rintro ⟨-, hrest⟩
  obtain ⟨hsecond, -⟩ := hrest _ rfl
  exact absurd hsecond.raws (by decide)

end Comedi

end VillasNode
