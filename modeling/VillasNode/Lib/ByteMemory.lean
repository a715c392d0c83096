import VillasNode.Lib.ByteOrder

/-!
# Memory that is watched

A buffer with a log of the bytes that were read and written.
-/

namespace ByteMemory

open ByteOrder

inductive Access where
  | read (i : Nat)
  | write (i : Nat)
deriving DecidableEq

def Access.index : Access → Nat
  | .read i => i
  | .write i => i

structure Memory where
  bytes : List Byte
  log : List Access

/-- The bytes from `p` on are replaced. -/
def overwrite (p : Nat) (bs mem : List Byte) : List Byte := mem.take p ++ (bs ++ mem.drop (p + bs.length))

namespace Memory

def load (m : Memory) (e : Endian) (w p : Nat) : Memory × BitVec w :=
  ({ m with log := m.log ++ (List.range' p (w / 8)).map .read },
    ByteOrder.load e w ((m.bytes.drop p).take (w / 8)))

def store (m : Memory) (e : Endian) (w p : Nat) (x : BitVec w) : Memory :=
  { bytes := overwrite p (ByteOrder.store e w x) m.bytes
    log := m.log ++ (List.range' p (w / 8)).map .write }

/-- Every access was to a byte of the buffer. -/
def Safe (m : Memory) : Prop := ∀ a ∈ m.log, a.index < m.bytes.length

end Memory

variable {e : Endian} {w p : Nat} {m : Memory} {pre post : List Byte} {x y : BitVec w}

theorem load_middle (hw : 8 ∣ w) (hm : m.bytes = pre ++ (store e w x ++ post)) (hp : pre.length = p) :
    (m.load e w p).2 = x := by
  unfold Memory.load
  dsimp only
  rw [hm, List.drop_left' hp, List.take_left' (store_length ..), load_store hw]

theorem store_middle (hm : m.bytes = pre ++ (store e w x ++ post)) (hp : pre.length = p) :
    (m.store e w p y).bytes = pre ++ (store e w y ++ post) := by
  have hdrop : (pre ++ (store e w x ++ post)).drop (p + (store e w y).length) = post := by
    rw [← List.append_assoc]
    apply List.drop_left'
    rw [List.length_append, hp, store_length, store_length]
  unfold Memory.store overwrite
  dsimp only
  rw [hm, hdrop, List.take_left' hp]

theorem load_storeAll (hw : 8 ∣ w) {xs : List (BitVec w)} (hm : m.bytes = storeAll e w xs) {i : Nat}
    (hi : i < xs.length) : (m.load e w (w / 8 * i)).2 = xs[i] := by
  have hxs : xs = xs.take i ++ xs[i] :: xs.drop (i + 1) := by
    rw [← List.drop_eq_getElem_cons hi, List.take_append_drop]
  have hbytes : storeAll e w xs =
      storeAll e w (xs.take i) ++ (store e w xs[i] ++ storeAll e w (xs.drop (i + 1))) := by
    conv => lhs; rw [hxs]
    rw [storeAll, List.flatMap_append, List.flatMap_cons]
    rfl
  apply load_middle hw (hm.trans hbytes)
  rw [storeAll_length, List.length_take, Nat.min_eq_left (Nat.le_of_lt hi)]

theorem load_safe (hm : m.Safe) (hp : p + w / 8 ≤ m.bytes.length) : (m.load e w p).1.Safe := by
  intro a ha
  rcases List.mem_append.mp ha with ha | ha
  · exact hm a ha
  · obtain ⟨i, hi, rfl⟩ := List.mem_map.mp ha
    rw [List.mem_range'_1] at hi
    exact Nat.lt_of_lt_of_le hi.2 hp

theorem load_safe_iff (hw : 0 < w / 8) :
    (m.load e w p).1.Safe ↔ m.Safe ∧ p + w / 8 ≤ m.bytes.length := by
  constructor
  · intro h
    refine ⟨fun a ha => h a (List.mem_append_left _ ha), ?_⟩
    have hlast : Access.read (p + w / 8 - 1) ∈ (m.load e w p).1.log := by
      apply List.mem_append_right
      exact List.mem_map.mpr ⟨_, List.mem_range'_1.mpr (by omega), rfl⟩
    have hlt : p + w / 8 - 1 < m.bytes.length := h _ hlast
    omega
  · rintro ⟨hm, hp⟩
    exact load_safe hm hp

theorem store_safe (hm : m.Safe) (hlen : (m.store e w p y).bytes.length = m.bytes.length)
    (hp : p + w / 8 ≤ m.bytes.length) : (m.store e w p y).Safe := by
  intro a ha
  rw [hlen]
  rcases List.mem_append.mp ha with ha | ha
  · exact hm a ha
  · obtain ⟨i, hi, rfl⟩ := List.mem_map.mp ha
    rw [List.mem_range'_1] at hi
    exact Nat.lt_of_lt_of_le hi.2 hp

/-! ## Words side by side -/

theorem overwrite_length {bs mem : List Byte} (hp : p + bs.length ≤ mem.length) :
    (overwrite p bs mem).length = mem.length := by
  simp only [overwrite, List.length_append, List.length_take, List.length_drop]
  omega

theorem overwrite_overwrite {bs cs mem : List Byte} (hp : p ≤ mem.length) :
    overwrite (p + bs.length) cs (overwrite p bs mem) = overwrite p (bs ++ cs) mem := by
  have hlen : (mem.take p ++ bs).length = p + bs.length := by
    rw [List.length_append, List.length_take, Nat.min_eq_left hp]
  have hassoc : overwrite p bs mem = (mem.take p ++ bs) ++ mem.drop (p + bs.length) :=
    (List.append_assoc ..).symm
  rw [hassoc, overwrite, List.take_left' hlen, ← List.drop_drop, List.drop_left' hlen, List.drop_drop,
    overwrite, List.length_append, Nat.add_assoc, List.append_assoc, List.append_assoc]

theorem load_overwrite {bs cs mem : List Byte} {log : List Access} (hw : 8 ∣ w) (hp : p ≤ mem.length) :
    (Memory.load ⟨overwrite p (bs ++ (store e w x ++ cs)) mem, log⟩ e w (p + bs.length)).2 = x := by
  refine @load_middle e w (p + bs.length) _ (mem.take p ++ bs)
    (cs ++ mem.drop (p + (bs ++ (store e w x ++ cs)).length)) x hw ?_ ?_
  · simp only [overwrite, List.append_assoc]
  · rw [List.length_append, List.length_take, Nat.min_eq_left hp]

theorem getElem?_overwrite_outside {bs mem : List Byte} {i : Nat} (hp : p + bs.length ≤ mem.length)
    (hi : i < p ∨ p + bs.length ≤ i) : (overwrite p bs mem)[i]? = mem[i]? := by
  have hlen : (mem.take p).length = p := List.length_take_of_le (by omega)
  rw [overwrite]
  obtain hi | hi := hi
  · rw [List.getElem?_append_left (by omega), List.getElem?_take_of_lt hi]
  · rw [List.getElem?_append_right (by omega), List.getElem?_append_right (by omega),
      List.getElem?_drop, hlen]
    congr 1
    omega

theorem range_overwrite_outside {bs mem : List Byte} {q n : Nat} (hp : p + bs.length ≤ mem.length)
    (hq : q + n ≤ p ∨ p + bs.length ≤ q) :
    ((overwrite p bs mem).drop q).take n = (mem.drop q).take n := by
  apply List.ext_getElem?
  intro i
  rw [List.getElem?_take, List.getElem?_take]
  split
  · rw [List.getElem?_drop, List.getElem?_drop, getElem?_overwrite_outside hp (by omega)]
  · rfl

theorem range_overwrite_inside {bs mem : List Byte} (hp : p ≤ mem.length) :
    ((overwrite p bs mem).drop p).take bs.length = bs := by
  rw [overwrite, List.drop_left' (List.length_take_of_le hp), List.take_left]

theorem range_overwrite_front {bs mem : List Byte} {d n : Nat} (hp : p ≤ mem.length) :
    ((overwrite p bs mem).drop (p + d)).take n =
      overwrite 0 ((bs.drop d).take n) ((mem.drop (p + d)).take n) := by
  have hlen : (mem.take p).length = p := List.length_take_of_le hp
  have hfront : (mem.take p).drop (p + d) = [] := List.drop_eq_nil_of_le (by omega)
  rw [overwrite, overwrite, List.drop_append, hfront, hlen, Nat.add_sub_cancel_left, List.nil_append,
    List.drop_append, List.take_append, List.take_zero, List.nil_append, List.drop_drop,
    Nat.zero_add, List.drop_take, List.drop_drop, List.length_take, List.length_drop]
  congr 1
  obtain hle | hlt := Nat.le_total n (bs.length - d)
  · rw [Nat.min_eq_left hle, Nat.sub_eq_zero_of_le hle, Nat.sub_self, List.take_zero, List.take_zero]
  · rw [Nat.min_eq_right hlt]
    congr 2
    omega

end ByteMemory
