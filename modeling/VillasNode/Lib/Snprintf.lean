import Mathlib.Algebra.Group.Nat.Defs
import VillasNode.Lib.ByteOrder

/-!
# Text appended with snprintf

The pattern `off += snprintf(buf + off, len - off, ...)`, with the memory behind
the end of the buffer in view. The return value does not tell that the text was
cut, so that `off` may run past `len`.
-/

namespace Snprintf

open ByteOrder

/-- `len - off` as a `size_t`. -/
def sizeSub (len off : Nat) : Nat := if off ≤ len then len - off else len + 2 ^ 64 - off

/-- At most `size` bytes with the NUL at the end. -/
def snprintf (mem : Nat → Byte) (pos size : Nat) (text : List Byte) : Nat → Byte := fun a =>
  if size = 0 ∨ a < pos then mem a
  else if a < pos + min text.length (size - 1) then text.getD (a - pos) 0
  else if a = pos + min text.length (size - 1) then 0
  else mem a

/-- Where a call writes and which size it is given. -/
structure Call where
  start : Nat
  size : Nat
deriving DecidableEq

/-- The call starts inside the buffer of `len` bytes, or at its end, and gets what is left of it. -/
def Call.InBounds (len : Nat) (c : Call) : Prop := c.start ≤ len ∧ c.start + c.size = len

instance (len : Nat) (c : Call) : Decidable (c.InBounds len) := inferInstanceAs (Decidable (_ ∧ _))

structure Out where
  mem : Nat → Byte
  off : Nat
  calls : List Call

/-- `off += snprintf(buf + off, len - off, text)`, where `buf` is at `base`. -/
def emit (base len : Nat) (o : Out) (text : List Byte) : Out where
  mem := snprintf o.mem (base + o.off) (sizeSub len o.off) text
  off := o.off + text.length
  calls := o.calls ++ [⟨base + o.off, sizeSub len o.off⟩]

def emits (base len : Nat) (o : Out) (texts : List (List Byte)) : Out :=
  texts.foldl (emit base len) o

/-- The text is in memory from `pos` on. -/
def Holds (mem : Nat → Byte) (pos : Nat) (text : List Byte) : Prop :=
  ∀ i b, text[i]? = some b → mem (pos + i) = b

theorem Holds.append {mem : Nat → Byte} {pos : Nat} {s t : List Byte} (hs : Holds mem pos s)
    (ht : Holds mem (pos + s.length) t) : Holds mem pos (s ++ t) := by
  intro i b hb
  rw [List.getElem?_append] at hb
  split at hb
  · exact hs i b hb
  · have := ht _ b hb
    rwa [show pos + s.length + (i - s.length) = pos + i by omega] at this

theorem Holds.right {mem : Nat → Byte} {s t : List Byte} (h : Holds mem 0 (s ++ t)) :
    Holds mem s.length t := by
  intro i b hb
  rw [← Nat.zero_add s.length, Nat.add_assoc]
  apply h
  rw [List.getElem?_append_right (by omega)]
  simpa using hb

theorem Holds.of_eq {mem mem' : Nat → Byte} {pos : Nat} {text : List Byte}
    (h : Holds mem pos text) (heq : ∀ a < pos + text.length, mem' a = mem a) :
    Holds mem' pos text := by
  intro i b hb
  obtain ⟨hi, _⟩ := List.getElem?_eq_some_iff.mp hb
  rw [heq _ (by omega), h i b hb]

section
variable {base len : Nat} {o : Out} {text : List Byte} {texts : List (List Byte)}

/-! ## One call -/

theorem snprintf_below {mem : Nat → Byte} {pos size a : Nat} (h : a < pos) :
    snprintf mem pos size text a = mem a := by
  simp [snprintf, h]

theorem snprintf_holds {mem : Nat → Byte} {pos size : Nat} (h : text.length < size) :
    Holds (snprintf mem pos size text) pos text := by
  intro i b hb
  obtain ⟨hi, rfl⟩ := List.getElem?_eq_some_iff.mp hb
  simp only [snprintf]
  rw [if_neg (by omega), if_pos (by omega), show pos + i - pos = i by omega]
  simp [hi]

theorem snprintf_one {mem : Nat → Byte} {pos : Nat} : snprintf mem pos 1 text pos = 0 := by
  simp [snprintf]

theorem sizeSub_of_le {off : Nat} (h : off ≤ len) : sizeSub len off = len - off := by
  simp [sizeSub, h]

theorem inBounds_iff {off : Nat} : Call.InBounds (base + len) ⟨base + off, sizeSub len off⟩ ↔
    off ≤ len := by
  simp only [Call.InBounds, sizeSub]
  split <;> omega

/-! ## Many calls -/

@[simp]
theorem emits_nil : emits base len o [] = o := rfl

@[simp]
theorem emits_cons : emits base len o (text :: texts) = emits base len (emit base len o text) texts :=
  rfl

theorem emits_append {texts' : List (List Byte)} :
    emits base len o (texts ++ texts') = emits base len (emits base len o texts) texts' :=
  List.foldl_append

theorem emits_ite {c : Prop} [Decidable c] {texts' : List (List Byte)} :
    emits base len o (if c then texts else texts') =
      if c then emits base len o texts else emits base len o texts' :=
  apply_ite ..

theorem emits_off : (emits base len o texts).off = o.off + texts.flatten.length := by
  induction texts generalizing o with
  | nil => simp
  | cons text texts ih =>
    rw [emits_cons, ih]
    simp [emit]
    omega

theorem emits_below {a : Nat} (h : a < base + o.off) : (emits base len o texts).mem a = o.mem a := by
  induction texts generalizing o with
  | nil => rfl
  | cons text texts ih =>
    rw [emits_cons, ih (by simp only [emit]; omega)]
    exact snprintf_below h

/-- Texts that end before the last byte of the buffer arrive whole. -/
theorem emits_holds (h : o.off + texts.flatten.length < len) :
    Holds (emits base len o texts).mem (base + o.off) texts.flatten := by
  induction texts generalizing o with
  | nil => simp [Holds]
  | cons text texts ih =>
    simp only [List.flatten_cons, List.length_append] at h ⊢
    have hrest : Holds (emits base len (emit base len o text) texts).mem
        (base + o.off + text.length) texts.flatten := by
      rw [Nat.add_assoc]
      apply ih
      simp only [emit]
      omega
    have hfirst : Holds (emit base len o text).mem (base + o.off) text := by
      apply snprintf_holds
      rw [sizeSub_of_le (by omega)]
      omega
    apply Holds.append _ hrest
    apply hfirst.of_eq
    intro a ha
    apply emits_below
    simp only [emit]
    omega

theorem mem_emits_calls {c : Call} (h : c ∈ o.calls) : c ∈ (emits base len o texts).calls := by
  induction texts generalizing o with
  | nil => exact h
  | cons text texts ih =>
    apply ih
    simp [emit, h]

theorem emits_inBounds_iff (hcalls : ∀ c ∈ o.calls, c.InBounds (base + len)) :
    (∀ c ∈ (emits base len o (texts ++ [text])).calls, c.InBounds (base + len)) ↔
      o.off + texts.flatten.length ≤ len := by
  induction texts generalizing o with
  | nil =>
    simp only [List.nil_append, emits_cons, emits_nil, emit, List.mem_append, List.mem_singleton,
      List.flatten_nil, List.length_nil, Nat.add_zero]
    constructor
    · intro h
      exact inBounds_iff.1 (h _ (.inr rfl))
    · rintro h c (hc | rfl)
      · exact hcalls c hc
      · exact inBounds_iff.2 h
  | cons t texts ih =>
    simp only [List.cons_append, emits_cons, List.flatten_cons, List.length_append]
    by_cases hle : o.off ≤ len
    · rw [ih, emit, Nat.add_assoc]
      intro c hc
      simp only [emit, List.mem_append, List.mem_singleton] at hc
      obtain hc | rfl := hc
      · exact hcalls c hc
      · exact inBounds_iff.2 hle
    · constructor
      · intro h
        have hcall := h ⟨base + o.off, sizeSub len o.off⟩ (by
          apply mem_emits_calls
          simp [emit])
        have := inBounds_iff.1 hcall
        omega
      · intro h
        omega

end

end Snprintf
