import Mathlib.Algebra.GroupWithZero.Nat
import VillasNode.Lib.ByteMemory
import VillasNode.Lib.MachineInt
import VillasNode.VillasBinary.Model

/-!
# The raw format

`RawFormat::sprint` and `RawFormat::sscan` of `lib/formats/raw.cpp` on a little
endian host, without 128 bit types. A buffer is an array of words of `bits`
bits. Other widths than 8, 16, 32 and 64 are accepted, and no value is written.
-/

namespace VillasNode

open ByteOrder ByteMemory MachineInt

structure RawFormat where
  endianess : Endian
  bits : Nat
  fake : Bool
  /-- What `parse` checks. -/
  bits_ok : bits % 8 = 0 ∧ bits ≤ 128 ∧ 0 < bits
  conv : FloatConv
  signals : Nat
  lists : Nat → List SignalType
  /-- The order in which the two arguments of `std::complex<float>(..)` are evaluated. -/
  realFirst : Bool

namespace RawFormat

variable (f : RawFormat)

/-- The width of a word in bytes. -/
def width : Nat := f.bits / 8

/-- The widths for which there is a `case`. -/
def Supported : Prop := f.bits = 8 ∨ f.bits = 16 ∨ f.bits = 32 ∨ f.bits = 64

instance : Decidable f.Supported := inferInstanceAs (Decidable (_ ∨ _))

def sampleFormat (smp : Payload) (i : Nat) : SignalType := (f.lists smp.signals).getD i .invalid

/-! ## Words -/

/-- `SWAP_INT_HTOX` and `SWAP_FLOAT_HTOX`. For 8 bits the code has none, and this is the identity. -/
def htox (x : BitVec f.bits) : BitVec f.bits :=
  ByteOrder.load .little f.bits (store f.endianess f.bits x)

/-- `SWAP_INT_XTOH` and `SWAP_FLOAT_XTOH`. -/
def xtoh (x : BitVec f.bits) : BitVec f.bits :=
  ByteOrder.load f.endianess f.bits (store .little f.bits x)

/-- The words for an integer. -/
def intWords (x : BitVec 64) : List (BitVec f.bits) :=
  if f.Supported then [f.htox (x.setWidth f.bits)] else []

/-- The words for a `double` that is also given as a `float`. -/
def floatWords (single : BitVec 32) (double : BitVec 64) : List (BitVec f.bits) :=
  if f.bits = 8 ∨ f.bits = 16 then [-1]
  else if f.bits = 32 then [f.htox (single.setWidth f.bits)]
  else if f.bits = 64 then [f.htox (double.setWidth f.bits)]
  else []

/-- The words for a value. `none` for an invalid signal. A boolean is the lowest byte of the data. -/
def valueWords (t : SignalType) (data : Value) : Option (List (BitVec f.bits)) :=
  match t with
  | .float => some (f.floatWords (f.conv.narrow data) data)
  | .integer => some (f.intWords data)
  | .boolean => some (f.intWords (if data.extractLsb' 0 8 ≠ 0 then 1 else 0))
  | .complex =>
    let real := data.extractLsb' 0 32
    let imag := data.extractLsb' 32 32
    some (f.floatWords real (f.conv.widen real) ++ f.floatWords imag (f.conv.widen imag))
  | .invalid => none

/-! ## Writing -/

/-- The buffer with the number `o` of words that were written or read. It is an `int` in the code, with
no defined value from 2³¹ on. `sprint` never gets there, and `sscan` only behind a complex number. -/
structure Output where
  mem : Memory
  o : Nat

/-- How the loops end. -/
inductive Outcome where
  | done (out : Output)
  /-- `goto out` -/
  | full (out : Output)
  | invalid (out : Output)

/-- The check of the length for `slots` more words. -/
def noRoom (len : Nat) (out : Output) (slots : Nat) : Prop :=
  len ≤ toSize ((out.o + slots) * f.width)

instance (len : Nat) (out : Output) (slots : Nat) : Decidable (f.noRoom len out slots) :=
  inferInstanceAs (Decidable (_ ≤ _))

/-- `i32[o++] = x`, and so on for the other widths. -/
def putWord (out : Output) (x : BitVec f.bits) : Output :=
  ⟨out.mem.store .little f.bits (f.width * out.o) x, out.o + 1⟩

def put (out : Output) (xs : List (BitVec f.bits)) : Output := xs.foldl f.putWord out

/-- The number of words that the check reckons with. -/
def slots (t : SignalType) : Nat := if t = .complex then 2 else 1

/-- The loop over the `n` values from `j` on. -/
def printValues (len : Nat) (smp : Payload) : Nat → Nat → Output → Outcome
  | 0, _, out => .done out
  | n + 1, j, out =>
    if f.noRoom len out (slots (f.sampleFormat smp j)) then .full out
    else
      match f.valueWords (f.sampleFormat smp j) (smp.data j) with
      | none => .invalid out
      | some xs => printValues len smp n (j + 1) (f.put out xs)

def headerWords (smp : Payload) : List (BitVec f.bits) :=
  f.intWords smp.sequence ++ (f.intWords smp.origin.sec ++ f.intWords smp.origin.nsec)

def printSample (len : Nat) (smp : Payload) (out : Output) : Outcome :=
  if f.fake then
    if f.noRoom len out 3 then .full out
    else f.printValues len smp smp.length 0 (f.put out (f.headerWords smp))
  else f.printValues len smp smp.length 0 out

def printSamples (len : Nat) : List Payload → Output → Outcome
  | [], out => .done out
  | smp :: smps, out =>
    match f.printSample len smp out with
    | .done out => printSamples len smps out
    | outcome => outcome

/-- What `sprint` leaves. `wbytes` is `none` where it is not set. -/
structure Printed where
  out : Output
  ret : Int
  wbytes : Option Nat

/-- `RawFormat::sprint` into a buffer with these bytes. -/
def sprint (buf : List Byte) (smps : List Payload) : Printed :=
  match f.printSamples buf.length smps ⟨⟨buf, []⟩, 0⟩ with
  | .done out | .full out => ⟨out, toInt smps.length, some (toSize (out.o * f.width))⟩
  | .invalid out => ⟨out, -1, none⟩

/-! ## Reading -/

/-- `XTOH(i32[o++])`, and so on for the other widths. -/
def getWord (inp : Output) : Output × BitVec f.bits :=
  let (mem, x) := inp.mem.load .little f.bits (f.width * inp.o)
  (⟨mem, inp.o + 1⟩, f.xtoh x)

/-- A word as `uint64_t`. The words of 8 bits have a sign, the others come out of `le16toh` and so
on without. -/
def unsignedWord (x : BitVec f.bits) : BitVec 64 :=
  if f.bits = 8 then x.signExtend 64 else x.setWidth 64

/-- The bits of -1 as `double` and as `float`. -/
def minusOne : BitVec 64 := 0xbff0000000000000
def minusOneSingle : BitVec 32 := 0xbf800000

def scanComplex (inp : Output) (single : BitVec f.bits → BitVec 32) : Output × Value :=
  let (inp, x) := f.getWord inp
  let (inp, y) := f.getWord inp
  if f.realFirst then (inp, single y ++ single x) else (inp, single x ++ single y)

/-- One value. `none` for an invalid signal. -/
def scanValue (t : SignalType) (data : Value) (inp : Output) : Option (Output × Value) :=
  match t with
  | .float =>
    if f.bits = 8 ∨ f.bits = 16 then some (⟨inp.mem, inp.o + 1⟩, minusOne)
    else if f.bits = 32 then
      let (inp, x) := f.getWord inp
      some (inp, f.conv.widen (x.setWidth 32))
    else if f.bits = 64 then
      let (inp, x) := f.getWord inp
      some (inp, x.setWidth 64)
    else some (inp, data)
  | .integer =>
    if f.Supported then
      let (inp, x) := f.getWord inp
      some (inp, x.signExtend 64)
    else some (inp, data)
  | .boolean =>
    if f.Supported then
      let (inp, x) := f.getWord inp
      some (inp, data.extractLsb' 8 56 ++ (if x ≠ 0 then 1#8 else 0#8))
    else some (inp, data)
  | .complex =>
    if f.bits = 8 ∨ f.bits = 16 then
      some (⟨inp.mem, inp.o + 2⟩, minusOneSingle ++ minusOneSingle)
    else if f.bits = 32 then some (f.scanComplex inp fun x => x.setWidth 32)
    else if f.bits = 64 then some (f.scanComplex inp fun x => f.conv.narrow (x.setWidth 64))
    else some (inp, data)
  | .invalid => none

/-- The loop over the values from `i` on, with `n` places of the capacity left. -/
def scanValues (nlen : Int) : Nat → Nat → Output → Payload → Option (Output × Payload × Nat)
  | 0, i, inp, smp => some (inp, smp, i)
  | n + 1, i, inp, smp =>
    if nlen ≤ inp.o then some (inp, smp, i)
    else
      match f.scanValue (f.sampleFormat smp i) (smp.data i) inp with
      | none => none
      | some (inp, v) => scanValues nlen n (i + 1) inp (smp.setData i v)

def scanHeader (inp : Output) (smp : Payload) : Output × Payload :=
  if f.Supported then
    let (inp, sequence) := f.getWord inp
    let (inp, sec) := f.getWord inp
    let (inp, nsec) := f.getWord inp
    (inp, { smp with sequence := f.unsignedWord sequence
                     origin := ⟨f.unsignedWord sec, f.unsignedWord nsec⟩ })
  else (inp, smp)

/-- What `sscan` finds: the sample, what it returns and the number of bytes that were read. -/
structure Found where
  smp : Payload
  ret : Int
  rbytes : Option Nat

/-- `RawFormat::sscan` of the bytes in the buffer, for `cnt` samples of which `rx` is the first. A
sample after an error is not given. -/
def sscan (buf : List Byte) (rx : Receiver) (cnt : Nat) : Option Found :=
  let nlen := toInt (buf.length / f.width)
  if 1 < cnt then none
  else if buf.length % f.width ≠ 0 then none
  else if f.fake ∧ nlen < 3 then none
  else
    let inp : Output := ⟨⟨buf, []⟩, 0⟩
    let (inp, smp) :=
      if f.fake then
        let (inp, smp) := f.scanHeader inp rx.payload
        (inp, { smp with flags := SampleFlags.hasSequence ||| SampleFlags.hasTsOrigin })
      else (inp, { rx.payload with flags := 0, sequence := 0, origin := ⟨0, 0⟩ })
    let smp := { smp with signals := f.signals }
    match f.scanValues nlen rx.capacity 0 inp smp with
    | none => none
    | some (inp, smp, i) =>
      some ⟨{ smp with length := min i rx.capacity }, 1, some (toSize (inp.o * f.width))⟩

/-! ## Chunks -/

/-- What is written behind one check of the length. -/
structure Chunk where
  slots : Nat
  words : Option (List (BitVec f.bits))

def valueChunk (smp : Payload) (j : Nat) : f.Chunk :=
  ⟨slots (f.sampleFormat smp j), f.valueWords (f.sampleFormat smp j) (smp.data j)⟩

def sampleChunks (smp : Payload) : List f.Chunk :=
  (if f.fake then [⟨3, some (f.headerWords smp)⟩] else []) ++
    (List.range' 0 smp.length).map (f.valueChunk smp)

def printChunks (len : Nat) : List f.Chunk → Output → Outcome
  | [], out => .done out
  | c :: cs, out =>
    if f.noRoom len out c.slots then .full out
    else
      match c.words with
      | none => .invalid out
      | some xs => printChunks len cs (f.put out xs)

variable {f}

theorem printChunks_append (len : Nat) (cs cs' : List f.Chunk) (out : Output) :
    f.printChunks len (cs ++ cs') out =
      match f.printChunks len cs out with
      | .done out => f.printChunks len cs' out
      | outcome => outcome := by
  induction cs generalizing out with
  | nil => rfl
  | cons c cs ih =>
    simp only [List.cons_append, printChunks]
    split
    · rfl
    split
    · rfl
    · exact ih _

theorem printValues_chunks (len : Nat) (smp : Payload) (n j : Nat) (out : Output) :
    f.printValues len smp n j out =
      f.printChunks len ((List.range' j n).map (f.valueChunk smp)) out := by
  induction n generalizing j out with
  | zero => rfl
  | succ n ih =>
    rw [List.range'_succ, List.map_cons]
    unfold printValues printChunks valueChunk
    split
    · rfl
    dsimp only
    split
    · rfl
    · exact ih _ _

theorem printSample_chunks (len : Nat) (smp : Payload) (out : Output) :
    f.printSample len smp out = f.printChunks len (f.sampleChunks smp) out := by
  unfold printSample sampleChunks
  split
  · rw [List.singleton_append]
    unfold printChunks
    split
    · rfl
    · exact printValues_chunks ..
  · rw [List.nil_append]
    exact printValues_chunks ..

theorem printSamples_chunks (len : Nat) (smps : List Payload) (out : Output) :
    f.printSamples len smps out = f.printChunks len (smps.flatMap f.sampleChunks) out := by
  induction smps generalizing out with
  | nil => rfl
  | cons smp smps ih =>
    rw [List.flatMap_cons, printChunks_append, printSamples, printSample_chunks]
    cases f.printChunks len (f.sampleChunks smp) out with
    | done out => exact ih out
    | full out => rfl
    | invalid out => rfl

/-! ## The number of words -/

theorem width_pos : 0 < f.width := by
  obtain ⟨hmod, -, hpos⟩ := f.bits_ok
  unfold width
  omega

theorem width_le : f.width ≤ 16 := by
  obtain ⟨-, hle, -⟩ := f.bits_ok
  unfold width
  omega

theorem intWords_length (x : BitVec 64) :
    (f.intWords x).length = if f.Supported then 1 else 0 := by
  unfold intWords
  split <;> rfl

theorem floatWords_length (single : BitVec 32) (double : BitVec 64) :
    (f.floatWords single double).length = if f.Supported then 1 else 0 := by
  unfold floatWords
  by_cases hsmall : f.bits = 8 ∨ f.bits = 16
  · have hsupported : f.Supported := hsmall.imp_right Or.inl
    rw [if_pos hsmall, if_pos hsupported]
    rfl
  by_cases hsingle : f.bits = 32
  · have hsupported : f.Supported := .inr (.inr (.inl hsingle))
    rw [if_neg hsmall, if_pos hsingle, if_pos hsupported]
    rfl
  by_cases hdouble : f.bits = 64
  · have hsupported : f.Supported := .inr (.inr (.inr hdouble))
    rw [if_neg hsmall, if_neg hsingle, if_pos hdouble, if_pos hsupported]
    rfl
  · have hsupported : ¬ f.Supported := by
      unfold Supported
      omega
    rw [if_neg hsmall, if_neg hsingle, if_neg hdouble, if_neg hsupported]
    rfl

/-- What the words of a chunk have to do with its slots. -/
structure Chunk.Ok (c : f.Chunk) : Prop where
  pos : 0 < c.slots
  le : c.slots ≤ 3
  length : ∀ xs, c.words = some xs → xs.length = if f.Supported then c.slots else 0

theorem valueChunk_ok (smp : Payload) (j : Nat) : (f.valueChunk smp j).Ok := by
  unfold valueChunk
  generalize f.sampleFormat smp j = t
  refine ⟨?_, ?_, fun xs hxs => ?_⟩
  · dsimp only [slots]
    split <;> omega
  · dsimp only [slots]
    split <;> omega
  · cases t with
    | float =>
      cases hxs
      exact floatWords_length ..
    | integer =>
      cases hxs
      exact intWords_length ..
    | boolean =>
      cases hxs
      exact intWords_length ..
    | complex =>
      cases hxs
      rw [List.length_append, floatWords_length, floatWords_length]
      split <;> rfl
    | invalid => cases hxs

theorem sampleChunks_ok (smp : Payload) : ∀ c ∈ f.sampleChunks smp, c.Ok := by
  intro c hc
  unfold sampleChunks at hc
  obtain hc | hc := List.mem_append.mp hc
  · split at hc
    · obtain rfl := List.mem_singleton.mp hc
      refine ⟨Nat.succ_pos 2, Nat.le_refl 3, fun xs hxs => ?_⟩
      cases hxs
      unfold headerWords
      rw [List.length_append, List.length_append, intWords_length, intWords_length, intWords_length]
      split <;> rfl
    · cases hc
  · obtain ⟨j, -, rfl⟩ := List.mem_map.mp hc
    exact valueChunk_ok smp j

theorem chunks_ok (smps : List Payload) : ∀ c ∈ smps.flatMap f.sampleChunks, c.Ok := by
  intro c hc
  obtain ⟨smp, -, hc⟩ := List.mem_flatMap.mp hc
  exact sampleChunks_ok smp c hc

/-! ## The check of the length -/

theorem noRoom_iff {len : Nat} {out : Output} {slots : Nat} (hlen : len < 2 ^ 63)
    (hout : out.o * f.width < 2 ^ 31) (hslots : slots ≤ 3) :
    f.noRoom len out slots ↔
      ¬ ((out.o + slots) * f.width < len ∧ (out.o + slots) * f.width < 2 ^ 31) := by
  have hmul : slots * f.width ≤ 3 * 16 := Nat.mul_le_mul hslots width_le
  have hsum := Nat.add_mul out.o slots f.width
  unfold noRoom
  obtain hlt | hge := Nat.lt_or_ge ((out.o + slots) * f.width) (2 ^ 31)
  · rw [toSize_of_lt hlt]
    omega
  · have hsize := toSize_of_ge hge (by omega)
    omega

/-! ## The buffer -/

/-- The words `xs` are at the front of the buffer, and no access was outside of it. -/
structure Writing (len : Nat) (out : Output) (xs : List (BitVec f.bits)) : Prop where
  count : out.o = xs.length
  bytes : out.mem.bytes.take (f.width * out.o) = storeAll .little f.bits xs
  length : out.mem.bytes.length = len
  safe : out.mem.Safe

theorem Writing.putWord {len : Nat} {out : Output} {xs : List (BitVec f.bits)}
    (h : f.Writing len out xs) (x : BitVec f.bits) (hroom : f.width * (out.o + 1) ≤ len) :
    f.Writing len (f.putWord out x) (xs ++ [x]) := by
  have hmul : f.width * (out.o + 1) = f.width * out.o + f.width := Nat.mul_succ ..
  have hlength := h.length
  have hstore : (store .little f.bits x).length = f.width := store_length ..
  have hbytes : (f.putWord out x).mem.bytes = out.mem.bytes.take (f.width * out.o) ++
      (store .little f.bits x ++ out.mem.bytes.drop (f.width * out.o + f.width)) := by
    change overwrite (f.width * out.o) (store .little f.bits x) out.mem.bytes = _
    unfold overwrite
    rw [hstore]
  have htake : (out.mem.bytes.take (f.width * out.o)).length = f.width * out.o := by
    rw [List.length_take]
    omega
  have hlen : (f.putWord out x).mem.bytes.length = out.mem.bytes.length := by
    rw [hbytes, List.length_append, List.length_append, List.length_drop, htake, hstore]
    omega
  refine ⟨?_, ?_, hlen.trans hlength, ?_⟩
  · rw [List.length_append, ← h.count]
    rfl
  · have hfront : (out.mem.bytes.take (f.width * out.o) ++ store .little f.bits x).length =
        f.width * (out.o + 1) := by
      rw [List.length_append, htake, hstore, hmul]
    change (f.putWord out x).mem.bytes.take (f.width * (out.o + 1)) = _
    rw [hbytes, ← List.append_assoc, List.take_left' hfront, h.bytes]
    simp [storeAll]
  · apply store_safe h.safe hlen
    change f.width * out.o + f.width ≤ _
    omega

theorem Writing.put {len : Nat} {out : Output} {xs : List (BitVec f.bits)}
    (h : f.Writing len out xs) (ys : List (BitVec f.bits))
    (hroom : f.width * (out.o + ys.length) ≤ len) :
    f.Writing len (f.put out ys) (xs ++ ys) := by
  induction ys generalizing out xs with
  | nil =>
    rw [List.append_nil]
    exact h
  | cons y ys ih =>
    rw [List.length_cons] at hroom
    have hone : f.width * (out.o + 1) ≤ f.width * (out.o + (ys.length + 1)) :=
      Nat.mul_le_mul_left _ (by omega)
    have hrest : out.o + (ys.length + 1) = (f.putWord out y).o + ys.length := by
      change _ = out.o + 1 + ys.length
      omega
    rw [← List.singleton_append, ← List.append_assoc]
    exact ih (h.putWord y (by omega)) (by rw [← hrest]; exact hroom)

/-! ## All chunks -/

/-- Every check of the length is passed, up to the first invalid signal. -/
def Passes (len : Nat) : Nat → List f.Chunk → Prop
  | _, [] => True
  | o, c :: cs =>
    ((o + c.slots) * f.width < len ∧ (o + c.slots) * f.width < 2 ^ 31) ∧
      match c.words with
      | none => True
      | some xs => Passes len (o + xs.length) cs

/-- The words of the chunks, as far as they are valid. -/
def chunkWords (cs : List f.Chunk) : List (BitVec f.bits) := cs.flatMap fun c => c.words.getD []

def chunkSlots (cs : List f.Chunk) : Nat := (cs.map Chunk.slots).sum

/-- How the loops end, and what they have written. -/
structure Ends (len : Nat) (cs : List f.Chunk) (o : Nat) (xs : List (BitVec f.bits))
    (outcome : Outcome) : Prop where
  done : ∀ out, outcome = .done out →
    Passes len o cs ∧ (∀ c ∈ cs, c.words.isSome) ∧ f.Writing len out (xs ++ chunkWords cs)
  full : ∀ out, outcome = .full out →
    ¬ Passes len o cs ∧ out.o < o + chunkSlots cs ∧ out.o * f.width < 2 ^ 31 ∧
      ∃ ys, f.Writing len out ys
  invalid : ∀ out, outcome = .invalid out →
    Passes len o cs ∧ (∃ c ∈ cs, c.words = none) ∧ ∃ ys, f.Writing len out ys

theorem printChunks_ends {len : Nat} (hlen : len < 2 ^ 63) {cs : List f.Chunk}
    (hcs : ∀ c ∈ cs, c.Ok) {out : Output} {xs : List (BitVec f.bits)}
    (h : f.Writing len out xs) (hout : out.o * f.width < 2 ^ 31) :
    Ends len cs out.o xs (f.printChunks len cs out) := by
  induction cs generalizing out xs with
  | nil =>
    refine ⟨fun out' hout' => ?_, fun out' hout' => (by cases hout'), fun out' hout' => (by cases hout')⟩
    cases hout'
    exact ⟨trivial, by simp, by simpa [chunkWords] using h⟩
  | cons c cs ih =>
    rw [List.forall_mem_cons] at hcs
    obtain ⟨⟨hpos, hle, hwords⟩, hcs⟩ := hcs
    have hroom := noRoom_iff hlen hout hle
    have hslots : chunkSlots (c :: cs) = c.slots + chunkSlots cs := by simp [chunkSlots]
    unfold printChunks
    by_cases hfull : f.noRoom len out c.slots
    · rw [if_pos hfull]
      refine ⟨fun _ h' => (by cases h'), fun out' h' => ?_, fun _ h' => (by cases h')⟩
      cases h'
      exact ⟨fun hpasses => hroom.mp hfull hpasses.1, by omega, hout, xs, h⟩
    have hfits := not_not.mp (mt hroom.mpr hfull)
    rw [if_neg hfull]
    cases hw : c.words with
    | none =>
      refine ⟨fun _ h' => (by cases h'), fun _ h' => (by cases h'), fun out' h' => ?_⟩
      cases h'
      refine ⟨⟨hfits, ?_⟩, ⟨c, by simp, hw⟩, xs, h⟩
      rw [hw]
      trivial
    | some ys =>
      have hys : ys.length ≤ c.slots := by
        have := hwords ys hw
        split at this <;> omega
      have hmul : (out.o + ys.length) * f.width ≤ (out.o + c.slots) * f.width :=
        Nat.mul_le_mul_right _ (by omega)
      have hcomm := Nat.mul_comm f.width (out.o + ys.length)
      have hput := h.put ys (by omega)
      have ho : (f.put out ys).o = out.o + ys.length := by
        rw [hput.count, List.length_append, h.count]
      have hends := ih hcs hput (by rw [ho]; omega)
      rw [ho] at hends
      have hpasses : Passes len out.o (c :: cs) ↔ Passes len (out.o + ys.length) cs := by
        rw [Passes, hw]
        exact and_iff_right hfits
      refine ⟨fun out' h' => ?_, fun out' h' => ?_, fun out' h' => ?_⟩
      · obtain ⟨hp, hsome, hwriting⟩ := hends.done out' h'
        refine ⟨hpasses.mpr hp, ?_, ?_⟩
        · rw [List.forall_mem_cons]
          exact ⟨by rw [hw]; rfl, hsome⟩
        · simpa [chunkWords, hw] using hwriting
      · obtain ⟨hp, hlt, hwriting⟩ := hends.full out' h'
        exact ⟨mt hpasses.mp hp, by omega, hwriting⟩
      · obtain ⟨hp, ⟨c', hc', hnone⟩, hwriting⟩ := hends.invalid out' h'
        exact ⟨hpasses.mpr hp, ⟨c', List.mem_cons_of_mem _ hc', hnone⟩, hwriting⟩

end RawFormat

end VillasNode
