import Mathlib.Algebra.Group.Nat.Defs
import Mathlib.Data.List.Basic

/-!
# Byte orders

Words in memory, in the order of a host, and the conversions between the order
of a host and the order of the network.
-/

namespace ByteOrder

abbrev Byte := BitVec 8

inductive Endian where
  | little
  | big
deriving DecidableEq

/-- The lowest `k` bytes of a number, the lowest one first. -/
def digits : Nat → Nat → List Byte
  | 0, _ => []
  | k + 1, n => BitVec.ofNat 8 n :: digits k (n / 256)

/-- The number with these bytes, the lowest one first. -/
def value : List Byte → Nat
  | [] => 0
  | b :: bs => b.toNat + 256 * value bs

/-- Exchange the lowest byte first and the order `e`. -/
def Endian.order (e : Endian) (bs : List Byte) : List Byte :=
  match e with
  | .little => bs
  | .big => bs.reverse

def store (e : Endian) (w : Nat) (x : BitVec w) : List Byte := e.order (digits (w / 8) x.toNat)

def load (e : Endian) (w : Nat) (bs : List Byte) : BitVec w := BitVec.ofNat w (value (e.order bs))

/-- `htons`, `htonl`: the word that has in memory the bytes of `x` in the order of the network. -/
def hton (e : Endian) (w : Nat) (x : BitVec w) : BitVec w := load e w (store .big w x)

def ntoh (e : Endian) (w : Nat) (x : BitVec w) : BitVec w := load .big w (store e w x)

/-! ## One word -/

variable {e : Endian} {w : Nat}

theorem digits_length (k n : Nat) : (digits k n).length = k := by
  induction k generalizing n with
  | zero => rfl
  | succ k ih => rw [digits, List.length_cons, ih]

theorem value_digits (k n : Nat) : value (digits k n) = n % 256 ^ k := by
  induction k generalizing n with
  | zero => rw [digits, value, Nat.pow_zero, Nat.mod_one]
  | succ k ih =>
    have hpow : 256 ^ (k + 1) = 256 * 256 ^ k := Nat.pow_succ'
    rw [digits, value, ih, BitVec.toNat_ofNat, hpow, Nat.mod_mul]

theorem digits_value (bs : List Byte) : digits bs.length (value bs) = bs := by
  induction bs with
  | nil => rfl
  | cons b bs ih =>
    have hlt : b.toNat < 256 := b.isLt
    have hdiv : (b.toNat + 256 * value bs) / 256 = value bs := by omega
    have hmod : BitVec.ofNat 8 (b.toNat + 256 * value bs) = b := by
      apply BitVec.eq_of_toNat_eq
      rw [BitVec.toNat_ofNat]
      omega
    rw [List.length_cons, value, digits, hdiv, hmod, ih]

theorem value_lt (bs : List Byte) : value bs < 256 ^ bs.length := by
  rw [← digits_value bs, value_digits, digits_length]
  exact Nat.mod_lt _ (Nat.pow_pos (by decide))

@[simp]
theorem order_order (e : Endian) (bs : List Byte) : e.order (e.order bs) = bs := by
  cases e with
  | little => rfl
  | big => exact List.reverse_reverse bs

@[simp]
theorem order_length (e : Endian) (bs : List Byte) : (e.order bs).length = bs.length := by
  cases e with
  | little => rfl
  | big => exact List.length_reverse

@[simp]
theorem store_length (e : Endian) (w : Nat) (x : BitVec w) : (store e w x).length = w / 8 := by
  rw [store, order_length, digits_length]

theorem pow_bytes (hw : 8 ∣ w) : 256 ^ (w / 8) = 2 ^ w := by
  obtain ⟨k, rfl⟩ := hw
  rw [Nat.mul_div_cancel_left k (by decide), show 256 = 2 ^ 8 from rfl, ← Nat.pow_mul]

theorem load_store (hw : 8 ∣ w) (x : BitVec w) : load e w (store e w x) = x := by
  rw [load, store, order_order, value_digits, pow_bytes hw, Nat.mod_eq_of_lt x.isLt,
    BitVec.ofNat_toNat, BitVec.setWidth_eq]

theorem store_load (hw : 8 ∣ w) {bs : List Byte} (hbs : bs.length = w / 8) :
    store e w (load e w bs) = bs := by
  have hlt := value_lt (e.order bs)
  rw [order_length, hbs, pow_bytes hw] at hlt
  have hdigits := digits_value (e.order bs)
  rw [order_length, hbs] at hdigits
  rw [store, load, BitVec.toNat_ofNat, Nat.mod_eq_of_lt hlt, hdigits, order_order]

theorem store_hton (hw : 8 ∣ w) (x : BitVec w) : store e w (hton e w x) = store .big w x :=
  store_load hw (store_length ..)

theorem ntoh_load (hw : 8 ∣ w) (x : BitVec w) : ntoh e w (load e w (store .big w x)) = x := by
  rw [ntoh, store_load hw (store_length ..), load_store hw]

/-! ## Many words -/

def storeAll (e : Endian) (w : Nat) (xs : List (BitVec w)) : List Byte := xs.flatMap (store e w)

/-- The array of `n` words at the front of these bytes. -/
def loadAll (e : Endian) (w : Nat) : Nat → List Byte → List (BitVec w)
  | 0, _ => []
  | n + 1, bs => load e w (bs.take (w / 8)) :: loadAll e w n (bs.drop (w / 8))

@[simp]
theorem loadAll_length (e : Endian) (w n : Nat) (bs : List Byte) : (loadAll e w n bs).length = n := by
  induction n generalizing bs with
  | zero => rfl
  | succ n ih => rw [loadAll, List.length_cons, ih]

theorem storeAll_cons (e : Endian) (w : Nat) (x : BitVec w) (xs : List (BitVec w)) :
    storeAll e w (x :: xs) = store e w x ++ storeAll e w xs := List.flatMap_cons

@[simp]
theorem storeAll_length (e : Endian) (w : Nat) (xs : List (BitVec w)) :
    (storeAll e w xs).length = w / 8 * xs.length := by
  induction xs with
  | nil => rfl
  | cons x xs ih =>
    rw [storeAll_cons, List.length_append, store_length, ih, List.length_cons, Nat.mul_succ, Nat.add_comm]

theorem storeAll_hton (hw : 8 ∣ w) (xs : List (BitVec w)) :
    storeAll e w (xs.map (hton e w)) = storeAll .big w xs := by
  unfold storeAll
  rw [List.flatMap_map]
  congr 1
  funext x
  exact store_hton hw x

theorem loadAll_storeAll {e' : Endian} (xs : List (BitVec w)) (rest : List Byte) :
    loadAll e w xs.length (storeAll e' w xs ++ rest) = xs.map fun x => load e w (store e' w x) := by
  induction xs with
  | nil => rfl
  | cons x xs ih =>
    have hlen := store_length e' w x
    rw [storeAll_cons, List.append_assoc, List.length_cons, loadAll, List.map_cons]
    rw [List.take_left' hlen, List.drop_left' hlen, ih]

end ByteOrder
