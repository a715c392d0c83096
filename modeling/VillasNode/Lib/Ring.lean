import Mathlib.Data.List.Rotate

/-!
# Rings of the last values

A list is a ring when the value with number `n` goes to slot `n % length`. Read
from the slot that is written next, it holds the last values, oldest first.
-/

namespace Ring

variable {α : Type*}

def write (ring : List α) (pos : Nat) (v : α) : List α := ring.set (pos % ring.length) v

/-- The last `size` values, oldest first, and `zero` in place of those before the first one. -/
def window (size : Nat) (zero : α) (vs : List α) : List α :=
  (List.replicate size zero ++ vs).drop vs.length

/-- The values are stored one after another, the one with number `n` in slot `slot n`. The first of
them has number `pos`. -/
def storeAll (slot : Nat → Nat) (ring : List α) (pos : Nat) : List α → List α
  | [] => ring
  | v :: vs => storeAll slot (ring.set (slot pos) v) (pos + 1) vs

def writeAll (ring : List α) (vs : List α) : List α := storeAll (· % ring.length) ring 0 vs

variable {slot : Nat → Nat} {ring vs : List α} {size pos : Nat} {zero v : α}

@[simp]
theorem length_write : (write ring pos v).length = ring.length := List.length_set ..

@[simp]
theorem length_window : (window size zero vs).length = size := by
  simp [window]

@[simp]
theorem window_nil : window size zero [] = List.replicate size zero := by
  simp [window]

theorem storeAll_append (ws : List α) :
    storeAll slot ring pos (vs ++ ws) =
      storeAll slot (storeAll slot ring pos vs) (pos + vs.length) ws := by
  induction vs generalizing ring pos with
  | nil => rfl
  | cons v vs ih =>
    rw [List.cons_append, storeAll, ih, storeAll, List.length_cons]
    congr 1
    omega

theorem storeAll_concat :
    storeAll slot ring pos (vs ++ [v]) =
      (storeAll slot ring pos vs).set (slot (pos + vs.length)) v := by
  rw [storeAll_append]
  rfl

@[simp]
theorem length_storeAll : (storeAll slot ring pos vs).length = ring.length := by
  induction vs generalizing ring pos with
  | nil => rfl
  | cons v vs ih => rw [storeAll, ih, List.length_set]

theorem window_concat (hsize : 0 < size) :
    window size zero (vs ++ [v]) = (window size zero vs).tail ++ [v] := by
  unfold window
  rw [List.tail_drop, List.length_append, List.length_singleton, ← List.append_assoc,
    List.drop_append_of_le_length (by simp; omega)]

theorem getElem?_window_of_lt {i : Nat} (hlt : vs.length + i < size) :
    (window size zero vs)[i]? = some zero := by
  rw [window, List.getElem?_drop, List.getElem?_append_left (by simpa using hlt),
    List.getElem?_replicate, if_pos hlt]

theorem getElem?_window_of_ge {i : Nat} (hge : size ≤ vs.length + i) :
    (window size zero vs)[i]? = vs[vs.length + i - size]? := by
  rw [window, List.getElem?_drop, List.getElem?_append_right (by simpa using hge),
    List.length_replicate]

theorem mod_ne_mod {j k : Nat} (hlt : j < k) (hnear : k < j + size) : k % size ≠ j % size := by
  intro heq
  have hdvd : size ∣ k - j := Nat.dvd_of_mod_eq_zero (Nat.sub_mod_eq_zero_of_mod_eq heq)
  have hle := Nat.le_of_dvd (by omega) hdvd
  omega

theorem rotate_write (hring : ring ≠ []) :
    (write ring pos v).rotate (pos + 1) = (ring.rotate pos).tail ++ [v] := by
  have hlen : 0 < ring.length := List.length_pos_iff.mpr hring
  apply List.ext_getElem
  · simp
    omega
  · intro i hi hi'
    simp only [List.length_rotate, length_write] at hi
    rw [List.getElem_rotate]
    simp only [write, List.length_set, List.getElem_set]
    obtain hlast | hlt : i = ring.length - 1 ∨ i < ring.length - 1 := by omega
    · have hslot : (i + (pos + 1)) % ring.length = pos % ring.length := by
        rw [show i + (pos + 1) = pos + ring.length by omega, Nat.add_mod_right]
      rw [if_pos hslot.symm, List.getElem_append_right (by simp; omega)]
      simp
    · have hslot : (i + (pos + 1)) % ring.length ≠ pos % ring.length :=
        mod_ne_mod (by omega) (by omega)
      rw [if_neg hslot.symm, List.getElem_append_left (by simp; omega), List.getElem_tail,
        List.getElem_rotate]
      congr 2
      omega

/-- A ring that was filled with `zero` holds the window of what was stored in it. -/
theorem rotate_writeAll (hsize : 0 < size) (vs : List α) :
    (writeAll (List.replicate size zero) vs).rotate vs.length = window size zero vs := by
  induction vs using List.reverseRecOn with
  | nil => simp [writeAll, storeAll]
  | append_singleton vs v ih =>
    have hlen : (writeAll (List.replicate size zero) vs).length = size := by
      rw [writeAll, length_storeAll, List.length_replicate]
    have hne : writeAll (List.replicate size zero) vs ≠ [] := by
      apply List.length_pos_iff.mp
      rw [hlen]
      exact hsize
    have hstep : writeAll (List.replicate size zero) (vs ++ [v]) =
        write (writeAll (List.replicate size zero) vs) vs.length v := by
      simp only [writeAll, storeAll_concat, write, length_storeAll, Nat.zero_add]
    rw [hstep, List.length_append, List.length_singleton, rotate_write hne, ih,
      window_concat hsize]

/-! ## Slots of any order -/

theorem storeAll_slot (P : α → Prop) (ring vs : List α) (pos : Nat) {j : Nat} {x : α}
    (hold : ∀ y, ring[j]? = some y → P y)
    (hnew : ∀ k y, vs[k]? = some y → slot (pos + k) = j → P y)
    (hx : (storeAll slot ring pos vs)[j]? = some x) : P x := by
  induction vs generalizing ring pos with
  | nil => exact hold x hx
  | cons v vs ih =>
    refine ih (ring.set (slot pos) v) (pos + 1) ?_ ?_ hx
    · intro y hy
      obtain heq | hne := eq_or_ne (slot pos) j
      · have hlt : slot pos < ring.length := by
          by_contra hge
          rw [List.getElem?_set, if_pos heq, if_neg hge] at hy
          cases hy
        rw [List.getElem?_set, if_pos heq, if_pos hlt] at hy
        cases hy
        exact hnew 0 v rfl heq
      · rw [List.getElem?_set_ne hne] at hy
        exact hold y hy
    · intro k y hk hslot
      refine hnew (k + 1) y hk ?_
      rw [← hslot]
      congr 1
      omega

theorem storeAll_replicate_slot (P : α → Prop) (hzero : P zero) {j : Nat} {x : α}
    (hnew : ∀ k y, vs[k]? = some y → slot (pos + k) = j → P y)
    (hx : (storeAll slot (List.replicate size zero) pos vs)[j]? = some x) : P x := by
  refine storeAll_slot P _ vs pos ?_ hnew hx
  intro y hy
  rw [List.eq_of_mem_replicate (List.mem_of_getElem? hy)]
  exact hzero

theorem storeAll_last (ring vs : List α) (pos : Nat) {k : Nat} {x : α} (hk : vs[k]? = some x)
    (hslot : slot (pos + k) < ring.length)
    (hlast : ∀ k', k < k' → k' < vs.length → slot (pos + k') ≠ slot (pos + k)) :
    (storeAll slot ring pos vs)[slot (pos + k)]? = some x := by
  induction vs generalizing ring pos k with
  | nil => cases hk
  | cons v vs ih =>
    cases k with
    | zero =>
      cases hk
      rw [Nat.add_zero] at hslot hlast ⊢
      have hlt : slot pos < (storeAll slot ring pos (x :: vs)).length := by
        rw [length_storeAll]
        exact hslot
      obtain ⟨y, hy⟩ : ∃ y, (storeAll slot ring pos (x :: vs))[slot pos]? = some y :=
        ⟨_, List.getElem?_eq_getElem hlt⟩
      have hkept : y = x := by
        refine storeAll_slot (fun y => y = x) (ring.set (slot pos) x) vs (pos + 1) ?_ ?_ hy
        · intro y hset
          rw [List.getElem?_set_self hslot] at hset
          cases hset
          rfl
        · intro k y hk heq
          have hlen := (List.getElem?_eq_some_iff.mp hk).1
          refine absurd ?_ (hlast (k + 1) (Nat.zero_lt_succ k) (Nat.succ_lt_succ hlen))
          rw [← heq]
          congr 1
          omega
      rw [hy, hkept]
    | succ k =>
      have hnext : pos + 1 + k = pos + (k + 1) := by omega
      rw [← hnext] at hslot hlast ⊢
      refine ih (ring.set (slot pos) v) (pos + 1) hk (by rwa [List.length_set]) ?_
      intro k' hlt hk'
      have hne := hlast (k' + 1) (Nat.succ_lt_succ hlt) (Nat.succ_lt_succ hk')
      rwa [show pos + (k' + 1) = pos + 1 + k' by omega] at hne

theorem getElem?_writeAll {j : Nat} {x : α} (hring : ring ≠ []) (hx : vs[j]? = some x)
    (hlast : vs.length ≤ j + ring.length) :
    (writeAll ring vs)[j % ring.length]? = some x := by
  have hlen : 0 < ring.length := List.length_pos_iff.mpr hring
  have hstored := @storeAll_last _ (· % ring.length) ring vs 0 _ _ hx (Nat.mod_lt _ hlen)
    fun k hlt hk => by
      rw [Nat.zero_add, Nat.zero_add]
      exact mod_ne_mod hlt (by omega)
  rw [Nat.zero_add] at hstored
  exact hstored

end Ring
