import Mathlib.Algebra.Group.Int.Defs
import VillasNode.Lib.ByteMemory
import VillasNode.VillasBinary.Model

/-!
# Values in CAN frames

`can_convert_to_raw` and `can_conv_from_raw` of `lib/nodes/can.cpp`, on memory
that is watched and on hosts of either byte order. A value of three bytes is a
word of two and a byte, both of which are read with their signs.
-/

namespace VillasNode.Can

open ByteOrder ByteMemory

structure Host where
  endian : Endian
  conv : FloatConv

variable (h : Host)

/-! `union signal_data`: a boolean is the first byte, a complex number two words. -/

def boolean (v : Value) : Byte := if (store h.endian 64 v).headD 0 = 0 then 0 else 1

def setBoolean (v : Value) (b : Byte) : Value :=
  ByteOrder.load h.endian 64 (b :: (store h.endian 64 v).tail)

def real (v : Value) : BitVec 32 := ByteOrder.load h.endian 32 ((store h.endian 64 v).take 4)

def imag (v : Value) : BitVec 32 := ByteOrder.load h.endian 32 ((store h.endian 64 v).drop 4)

def complex (re im : BitVec 32) : Value :=
  ByteOrder.load h.endian 64 (store h.endian 32 re ++ store h.endian 32 im)

/-- `can_convert_to_raw`, to the place `p`. `none` for an exception. -/
def convertToRaw (v : Value) (type : SignalType) (m : Memory) (p size : Nat) : Option Memory :=
  if size = 0 ∨ 8 < size then none
  else
    match type with
    | .boolean => some (m.store h.endian 8 p (boolean h v))
    | .integer =>
      match size with
      | 1 => some (m.store h.endian 8 p (v.setWidth 8))
      | 2 => some (m.store h.endian 16 p (v.setWidth 16))
      | 3 =>
        some ((m.store h.endian 16 p (v.setWidth 16)).store h.endian 8 (p + 2)
          ((v.sshiftRight 16).setWidth 8))
      | 4 => some (m.store h.endian 32 p (v.setWidth 32))
      | 8 => some (m.store h.endian 64 p v)
      | _ => none
    | .float =>
      match size with
      | 4 => some (m.store h.endian 32 p (h.conv.narrow v))
      | 8 => some (m.store h.endian 64 p v)
      | _ => none
    | .complex =>
      if size ≠ 8 then none
      else some ((m.store h.endian 32 p (real h v)).store h.endian 32 (p + 4) (imag h v))
    | .invalid => none

/-- `can_conv_from_raw`, from the place `p`, to a value that was `old`. -/
def convFromRaw (old : Value) (m : Memory) (p size : Nat) (type : SignalType) :
    Option (Memory × Value) :=
  if size = 0 ∨ 8 < size then none
  else
    match type with
    | .boolean =>
      let (m, b) := m.load h.endian 8 p
      some (m, setBoolean h old (if b = 0 then 0 else 1))
    | .integer =>
      match size with
      | 1 =>
        let (m, x) := m.load h.endian 8 p
        some (m, x.signExtend 64)
      | 2 =>
        let (m, x) := m.load h.endian 16 p
        some (m, x.signExtend 64)
      | 3 =>
        let (m, low) := m.load h.endian 16 p
        let (m, high) := m.load h.endian 8 (p + 2)
        some (m, low.signExtend 64 + high.signExtend 64 <<< 16)
      | 4 =>
        let (m, x) := m.load h.endian 32 p
        some (m, x.signExtend 64)
      | 8 => some (m.load h.endian 64 p)
      | _ => none
    | .float =>
      match size with
      | 4 =>
        let (m, x) := m.load h.endian 32 p
        some (m, h.conv.widen x)
      | 8 => some (m.load h.endian 64 p)
      | _ => none
    | .complex =>
      if size ≠ 8 then none
      else
        let (m, re) := m.load h.endian 32 p
        let (m, im) := m.load h.endian 32 (p + 4)
        some (m, complex h re im)
    | .invalid => none

/-! ## The specification -/

/-- The log has only bytes of the `size` ones from `p` on. -/
def Within (m : Memory) (p size : Nat) : Prop := ∀ a ∈ m.log, p ≤ a.index ∧ a.index < p + size

/-- A signed integer of that many bytes. -/
def Fits (v : Value) (size : Nat) : Prop :=
  -2 ^ (8 * size - 1) ≤ v.toInt ∧ v.toInt < 2 ^ (8 * size - 1)

/-- A value is written to these bytes and read back, and no byte at or beyond the size is touched. -/
def RoundTrips (v old : Value) (bytes : List Byte) (p size : Nat) : Prop :=
  ∃ m m', convertToRaw h v .integer ⟨bytes, []⟩ p size = some m ∧ Within m p size ∧
    convFromRaw h old ⟨m.bytes, []⟩ p size .integer = some (m', v) ∧ Within m' p size

/-! ## Signs -/

section
variable {v : Value}

theorem toInt_setWidth_small {w : Nat} (x : BitVec 64) (hw : w = 8 ∨ w = 16 ∨ w = 32) :
    (x.setWidth w).toInt = if x.toInt % 2 ^ w < 2 ^ (w - 1) then x.toInt % 2 ^ w
      else x.toInt % 2 ^ w - 2 ^ w := by
  have hx := BitVec.toInt_eq_toNat_cond x
  rw [BitVec.toInt_eq_toNat_cond, BitVec.toNat_setWidth]
  rcases hw with rfl | rfl | rfl <;> split at hx <;> split <;> split <;> omega

theorem signExtend_setWidth {w : Nat} (hw : w = 8 ∨ w = 16 ∨ w = 32) (hle : -2 ^ (w - 1) ≤ v.toInt)
    (hlt : v.toInt < 2 ^ (w - 1)) : (v.setWidth w).signExtend 64 = v := by
  apply BitVec.eq_of_toInt_eq
  rw [BitVec.toInt_signExtend_of_le (by omega), toInt_setWidth_small v hw]
  rcases hw with rfl | rfl | rfl <;> split <;> omega

theorem toInt_sshiftRight_16 (v : Value) : (v.sshiftRight 16).toInt = v.toInt / 65536 := by
  rw [BitVec.toInt_sshiftRight, Int.shiftRight_eq_div_pow]
  rfl

theorem toInt_add_small {x y : Value} (hle : -2 ^ 63 ≤ x.toInt + y.toInt)
    (hlt : x.toInt + y.toInt < 2 ^ 63) : (x + y).toInt = x.toInt + y.toInt := by
  rw [BitVec.toInt_add]
  exact Int.bmod_eq_of_le hle hlt

theorem toInt_shiftLeft_16 {x : Value} (hle : -2 ^ 47 ≤ x.toInt) (hlt : x.toInt < 2 ^ 47) :
    (x <<< 16).toInt = x.toInt * 65536 := by
  have hx := BitVec.toInt_eq_toNat_cond x
  rw [BitVec.toInt_eq_toNat_cond, BitVec.toNat_shiftLeft, Nat.shiftLeft_eq]
  split at hx <;> split <;> omega

theorem parts_eq_iff (hfits : Fits v 3) :
    (v.setWidth 16).signExtend 64 + ((v.sshiftRight 16).setWidth 8).signExtend 64 <<< 16 = v ↔
      v.toInt % 65536 < 32768 := by
  obtain ⟨hle, hlt⟩ := hfits
  have hshift := toInt_sshiftRight_16 v
  have hhigh : ((v.sshiftRight 16).setWidth 8).signExtend 64 = v.sshiftRight 16 :=
    signExtend_setWidth (.inl rfl) (by omega) (by omega)
  have hlow : ((v.setWidth 16).signExtend 64).toInt =
      if v.toInt % 65536 < 32768 then v.toInt % 65536 else v.toInt % 65536 - 65536 := by
    rw [BitVec.toInt_signExtend_of_le (by decide), toInt_setWidth_small v (.inr (.inl rfl))]
    rfl
  have hup : (v.sshiftRight 16 <<< 16).toInt = v.toInt / 65536 * 65536 := by
    rw [toInt_shiftLeft_16 (by omega) (by omega), hshift]
  rw [hhigh, ← BitVec.toInt_inj, toInt_add_small]
  · rw [hlow, hup]
    split <;> omega
  · rw [hlow, hup]
    split <;> omega
  · rw [hlow, hup]
    split <;> omega

end

/-! ## Bytes -/

section
variable {h} {v old : Value} {bytes : List Byte} {p size : Nat}

theorem within_empty (bytes : List Byte) : Within ⟨bytes, []⟩ p size := fun _ ha => by cases ha

theorem within_append {m : Memory} {log : List Access} (hm : Within m p size) {q n : Nat}
    {access : Nat → Access} (hindex : ∀ i, (access i).index = i)
    (hlog : log = m.log ++ (List.range' q n).map access) (hq : p ≤ q) (hn : q + n ≤ p + size)
    (bytes : List Byte) : Within ⟨bytes, log⟩ p size := by
  intro a ha
  rw [hlog] at ha
  obtain ha | ha := List.mem_append.mp ha
  · exact hm a ha
  · obtain ⟨i, hi, rfl⟩ := List.mem_map.mp ha
    rw [List.mem_range'_1] at hi
    rw [hindex]
    omega

theorem within_store {m : Memory} (hm : Within m p size) {w q : Nat} (x : BitVec w) (hq : p ≤ q)
    (hn : q + w / 8 ≤ p + size) : Within (m.store h.endian w q x) p size :=
  within_append hm (fun _ => rfl) rfl hq hn _

theorem within_load {m : Memory} (hm : Within m p size) {w q : Nat} (hq : p ≤ q)
    (hn : q + w / 8 ≤ p + size) : Within (m.load h.endian w q).1 p size :=
  within_append hm (fun _ => rfl) rfl hq hn _

theorem load_store_same {w : Nat} (hw : 8 ∣ w) (hp : p ≤ bytes.length) (x : BitVec w)
    (log : List Access) :
    (Memory.load ⟨(Memory.store ⟨bytes, []⟩ h.endian w p x).bytes, log⟩ h.endian w p).2 = x := by
  have hload := @load_overwrite h.endian w p x [] [] bytes log hw hp
  rw [List.append_nil] at hload
  exact hload

theorem roundTrips_word {w : Nat} (hw : 8 ∣ w) (hp : p ≤ bytes.length) {x : BitVec w}
    {value : BitVec w → Value} (hsize : w / 8 = size)
    (hto : ∀ m, convertToRaw h v .integer m p size = some (m.store h.endian w p x))
    (hfrom : ∀ m, convFromRaw h old m p size .integer =
      some ((m.load h.endian w p).1, value (m.load h.endian w p).2)) (hx : value x = v) :
    RoundTrips h v old bytes p size := by
  have hback := hfrom ⟨(Memory.store ⟨bytes, []⟩ h.endian w p x).bytes, []⟩
  rw [load_store_same hw hp, hx] at hback
  exact ⟨_, _, hto _, within_store (within_empty _) _ (Nat.le_refl p) (by omega), hback,
    within_load (within_empty _) (Nat.le_refl p) (by omega)⟩

theorem roundTrips_three (hp : p + 3 ≤ bytes.length) :
    RoundTrips h v old bytes p 3 ↔
      (v.setWidth 16).signExtend 64 + ((v.sshiftRight 16).setWidth 8).signExtend 64 <<< 16 = v := by
  generalize hlowEq : v.setWidth 16 = low
  generalize hhighEq : (v.sshiftRight 16).setWidth 8 = high
  have hlen : (store h.endian 16 low).length = 2 := store_length ..
  have hmem : overwrite (p + 2) (store h.endian 8 high) (overwrite p (store h.endian 16 low) bytes) =
      overwrite p (store h.endian 16 low ++ store h.endian 8 high) bytes := by
    rw [← hlen]
    exact overwrite_overwrite (by omega)
  generalize hm : (Memory.store ⟨bytes, []⟩ h.endian 16 p low).store h.endian 8 (p + 2) high = m
  have hbytes : m.bytes = overwrite p (store h.endian 16 low ++ store h.endian 8 high) bytes := by
    rw [← hm, ← hmem]
    rfl
  have hlow : (Memory.load ⟨m.bytes, []⟩ h.endian 16 p).2 = low := by
    rw [hbytes]
    exact @load_overwrite h.endian 16 p low [] (store h.endian 8 high) bytes [] (by decide) (by omega)
  have hhigh (log : List Access) : (Memory.load ⟨m.bytes, log⟩ h.endian 8 (p + 2)).2 = high := by
    have hload := @load_overwrite h.endian 8 p high (store h.endian 16 low) [] bytes log (by decide)
      (by omega)
    rw [List.append_nil, hlen] at hload
    rw [hbytes]
    exact hload
  have hto : convertToRaw h v .integer ⟨bytes, []⟩ p 3 = some m := by
    rw [← hm, ← hlowEq, ← hhighEq]
    rfl
  have hfrom : convFromRaw h old ⟨m.bytes, []⟩ p 3 .integer =
      some (((Memory.load ⟨m.bytes, []⟩ h.endian 16 p).1.load h.endian 8 (p + 2)).1,
        (Memory.load ⟨m.bytes, []⟩ h.endian 16 p).2.signExtend 64 +
          ((Memory.load ⟨m.bytes, []⟩ h.endian 16 p).1.load h.endian 8 (p + 2)).2.signExtend 64
            <<< 16) := rfl
  rw [hlow, show (Memory.load ⟨m.bytes, []⟩ h.endian 16 p).1 = ⟨m.bytes, _⟩ from rfl, hhigh] at hfrom
  have hwrites : Within m p 3 := by
    rw [← hm]
    exact within_store (within_store (within_empty _) _ (Nat.le_refl p) (by omega)) _ (by omega)
      (by omega)
  constructor
  · rintro ⟨_, _, hto', -, hfrom', -⟩
    cases hto.symm.trans hto'
    cases hfrom.symm.trans hfrom'
    rfl
  · intro heq
    rw [heq] at hfrom
    have hreads : Within (Memory.load ⟨m.bytes, []⟩ h.endian 16 p).1 p 3 :=
      within_load (within_empty _) (Nat.le_refl p) (by omega)
    exact ⟨m, _, hto, hwrites, hfrom, within_load hreads (by omega) (by omega)⟩

end

/-- For every size and every number of so many bytes: the number comes back, and only bytes in front
of the size are touched, if and only if it does not have three bytes of which the lower two are
negative. -/
theorem integer_roundTrips_iff {v : Value} {bytes : List Byte} {p size : Nat} (old : Value)
    (hsize : size ∈ [1, 2, 3, 4, 8]) (hfits : Fits v size) (hp : p + size ≤ bytes.length) :
    RoundTrips h v old bytes p size ↔ (size = 3 → v.toInt % 65536 < 32768) := by
  by_cases hthree : size = 3
  · subst hthree
    rw [roundTrips_three hp, parts_eq_iff hfits]
    exact ⟨fun hlow _ => hlow, fun hlow => hlow rfl⟩
  · refine iff_of_true ?_ fun heq => absurd heq hthree
    simp only [List.mem_cons, List.not_mem_nil, or_false, hthree, false_or] at hsize
    rcases hsize with rfl | rfl | rfl | rfl
    · exact roundTrips_word (w := 8) (by decide) (by omega) rfl (fun _ => rfl) (fun _ => rfl)
        (signExtend_setWidth (.inl rfl) hfits.1 hfits.2)
    · exact roundTrips_word (w := 16) (by decide) (by omega) rfl (fun _ => rfl) (fun _ => rfl)
        (signExtend_setWidth (.inr (.inl rfl)) hfits.1 hfits.2)
    · exact roundTrips_word (w := 32) (by decide) (by omega) rfl (fun _ => rfl) (fun _ => rfl)
        (signExtend_setWidth (.inr (.inr rfl)) hfits.1 hfits.2)
    · exact @roundTrips_word h v old bytes p 8 64 (by decide) (by omega) v id rfl (fun _ => rfl)
        (fun _ => rfl) rfl

def littleHost : Host := ⟨.little, ⟨fun v => v.setWidth 32, fun x => x.setWidth 64⟩⟩

theorem integer_roundTrips_iff_three :
    RoundTrips littleHost (-65536) 0 (List.replicate 8 0) 2 3 ↔
      ((3 : Nat) = 3 → (-65536 : Value).toInt % 65536 < 32768) :=
  integer_roundTrips_iff littleHost 0 (by decide) ⟨by decide, by decide⟩ (by decide)

/-- 32768 is read back as -32768. -/
theorem not_roundTrips_three :
    Fits 32768 3 ∧ ¬ RoundTrips littleHost 32768 0 (List.replicate 8 0) 0 3 := by
  refine ⟨⟨by decide, by decide⟩, ?_⟩
  rw [roundTrips_three (by decide)]
  decide

end VillasNode.Can
