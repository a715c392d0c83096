import VillasNode.Format.Scan

/-!
# Printed numbers

The texts of `%llu` and `%0*lld` are read as the numbers that they were printed
from.
-/

namespace VillasNode.Line

open ByteOrder Strto

/-- Digits with this value. -/
structure Numeral (text : List Byte) (n : Nat) : Prop where
  ne : text ≠ []
  digits : ∀ b ∈ text, isDigit b
  value : number text = n

section
variable {text : List Byte} {n : Nat}

theorem number_digits (h : ∀ b ∈ text, isDigit b) :
    number text = text.foldl (fun n b => 10 * n + (b.toNat - 48)) 0 := by
  rw [number, List.filter_eq_self.mpr h]

theorem digit_char {c : Char} (hc : c ∈ Nat.toDigits 10 n) :
    48 ≤ c.toNat ∧ c.toNat ≤ 57 := by
  have hdigit := Nat.isDigit_of_mem_toDigits (by decide) (by decide) hc
  simp only [Char.isDigit, Bool.and_eq_true, decide_eq_true_eq] at hdigit
  exact ⟨hdigit.1, hdigit.2⟩

theorem numeral_decimal (n : Nat) : Numeral (decimal n) n := by
  have hdigits : ∀ b ∈ decimal n, isDigit b := by
    intro b hb
    obtain ⟨c, hc, rfl⟩ := List.mem_map.mp hb
    have := digit_char hc
    simp only [isDigit, BitVec.toNat_ofNat, decide_eq_true_eq]
    omega
  refine ⟨by simp [decimal, Nat.toDigits_ne_nil], hdigits, ?_⟩
  rw [number_digits hdigits, decimal, List.foldl_map]
  calc (Nat.toDigits 10 n).foldl (fun m c => 10 * m + ((BitVec.ofNat 8 c.toNat).toNat - 48)) 0
      = (Nat.toDigits 10 n).foldl (fun m c => 10 * m + (c.toNat - '0'.toNat)) 0 := by
        apply List.foldl_ext
        intro m c hc
        have := digit_char hc
        have hmod : c.toNat % 2 ^ 8 = c.toNat := Nat.mod_eq_of_lt (by omega)
        rw [BitVec.toNat_ofNat, hmod]
        rfl
    _ = Nat.ofDigitChars 10 (Nat.toDigits 10 n) 0 := Nat.ofDigitChars_eq_foldl.symm
    _ = n := Nat.ofDigitChars_ten_toDigits

theorem Numeral.leftpad (h : Numeral text n) (width : Nat) : Numeral (text.leftpad width 48) n := by
  have hdigits : ∀ b ∈ text.leftpad width 48, isDigit b := by
    intro b hb
    rcases List.mem_append.mp hb with hb | hb
    · rw [List.eq_of_mem_replicate hb]
      decide
    · exact h.digits b hb
  refine ⟨?_, hdigits, ?_⟩
  · intro hnil
    exact h.ne (List.append_eq_nil_iff.mp hnil).2
  · have hzeros : ∀ k, (List.replicate k (48 : Byte)).foldl (fun n b => 10 * n + (b.toNat - 48)) 0 = 0 := by
      intro k
      induction k with
      | zero => rfl
      | succ k ih => exact ih
    rw [← h.value, number_digits hdigits, number_digits h.digits, List.leftpad, List.foldl_append, hzeros]

end

/-- Digits with this absolute value, behind a sign when it is negative. -/
def SignedNumeral (text : List Byte) (z : Int) : Prop :=
  0 ≤ z ∧ Numeral text z.natAbs ∨ z < 0 ∧ ∃ ds, text = ch '-' :: ds ∧ Numeral ds z.natAbs

section
variable {text s : List Byte} {n : Nat} {z : Int} {e : Byte}

theorem Numeral.signed (h : Numeral text n) : SignedNumeral text n := .inl ⟨Int.natCast_nonneg n, h⟩

theorem signedNumeral_decimalPadded (width : Nat) (z : Int) : SignedNumeral (decimalPadded width z) z := by
  unfold decimalPadded
  split_ifs with hneg
  · exact .inr ⟨hneg, _, rfl, (numeral_decimal _).leftpad _⟩
  · exact .inl ⟨by omega, (numeral_decimal _).leftpad _⟩

/-! ## Reading -/

theorem digit_not_space {b : Byte} (h : isDigit b) : isSpace b = false := by
  simp only [isDigit, isSpace, decide_eq_true_eq, decide_eq_false_iff_not] at h ⊢
  omega

theorem digit_not_sign {b : Byte} (h : isDigit b) : isSign b = false := by
  simp only [isSign, decide_eq_false_iff_not, not_or]
  constructor <;> rintro rfl <;> exact absurd h (by decide)

theorem Numeral.scan (h : Numeral text n) (he : isDigit e = false) :
    Strto.digits isDigit (text ++ e :: s) = some (e :: s) := by
  obtain ⟨b, ds, rfl⟩ := List.exists_cons_of_ne_nil h.ne
  have hb := h.digits b List.mem_cons_self
  have hds : ∀ c ∈ ds, isDigit c := fun c hc => h.digits c (List.mem_cons_of_mem _ hc)
  simp only [Strto.digits, Scan.andThen, Scan.one, Scan.many, List.cons_append, hb, if_true, Option.bind_some]
  rw [List.dropWhile_append_of_pos hds, List.dropWhile_cons_of_neg (by simp [he])]

theorem SignedNumeral.scan (h : SignedNumeral text z) (he : isDigit e = false) :
    (text ++ e :: s).dropWhile isSpace = text ++ e :: s ∧ integer (text ++ e :: s) = some (e :: s) := by
  rcases h with ⟨-, h⟩ | ⟨-, ds, rfl, h⟩
  · obtain ⟨b, ds, rfl⟩ := List.exists_cons_of_ne_nil h.ne
    have hb := h.digits b List.mem_cons_self
    constructor
    · exact List.dropWhile_cons_of_neg (by simp [digit_not_space hb])
    · have hsign : Scan.one isSign (b :: ds ++ e :: s) = none := by
        simp [Scan.one, digit_not_sign hb]
      simp only [integer, Scan.andThen, Scan.optional, hsign, Option.getD_none, Option.bind_some]
      exact h.scan he
  · constructor
    · exact List.dropWhile_cons_of_neg (by decide)
    · have hsign : Scan.one isSign (ch '-' :: ds ++ e :: s) = some (ds ++ e :: s) := by
        simp [Scan.one, show isSign (ch '-') = true by decide]
      simp only [integer, Scan.andThen, Scan.optional, hsign, Option.getD_some, Option.bind_some]
      exact h.scan he

theorem SignedNumeral.convert (h : SignedNumeral text z) (he : isDigit e = false) (p : Nat) :
    spaced integer (text ++ e :: s) = some (e :: s) ∧
      (⟨p, text ++ e :: s⟩ : Cursor).convert integer = (text, ⟨p + text.length, e :: s⟩) := by
  obtain ⟨hspace, hscan⟩ := h.scan (s := s) he
  have hspaced : spaced integer (text ++ e :: s) = some (e :: s) := by rw [spaced, hspace, hscan]
  refine ⟨hspaced, ?_⟩
  rw [convert_some (c := ⟨p, text ++ e :: s⟩) hspaced]
  simp only [token, hspace, Cursor.upTo, List.length_append, Nat.add_sub_cancel, List.take_left]

/-! ## Values -/

theorem Numeral.negative (h : Numeral text n) : negative text = false := by
  rw [Strto.negative, List.contains_eq_mem, decide_eq_false_iff_not]
  exact fun hmem => absurd (h.digits _ hmem) (by decide)

theorem SignedNumeral.number (h : SignedNumeral text z) : number text = z.natAbs := by
  rcases h with ⟨-, h⟩ | ⟨-, ds, rfl, h⟩
  · exact h.value
  · exact h.value

theorem SignedNumeral.negative (h : SignedNumeral text z) : negative text = decide (z < 0) := by
  rcases h with ⟨hz, h⟩ | ⟨hz, ds, rfl, h⟩
  · rw [h.negative, decide_eq_false_iff_not.mpr (by omega)]
  · rw [decide_eq_true hz]
    rfl

theorem SignedNumeral.ulongValue {v : BitVec 64} (h : SignedNumeral text v.toInt) :
    ulongValue text = v := by
  have hlt := BitVec.toInt_lt (x := v)
  have hle := BitVec.le_toInt (x := v)
  rw [Strto.ulongValue, h.number, h.negative, if_neg (by omega)]
  split_ifs with hneg
  · rw [decide_eq_true_eq] at hneg
    rw [← BitVec.ofInt_natCast, ← BitVec.ofInt_neg, show -(v.toInt.natAbs : Int) = v.toInt by omega,
      BitVec.ofInt_toInt]
  · rw [decide_eq_true_eq] at hneg
    rw [← BitVec.ofInt_natCast, show (v.toInt.natAbs : Int) = v.toInt by omega, BitVec.ofInt_toInt]

theorem Numeral.ulongValue {v : BitVec 64} (h : Numeral text v.toNat) : ulongValue text = v := by
  have hlt := v.isLt
  rw [Strto.ulongValue, h.value, h.negative, if_neg (by omega)]
  simp

theorem SignedNumeral.longValue {v : BitVec 64} (h : SignedNumeral text v.toInt) :
    longValue text = v := by
  have hlt := BitVec.toInt_lt (x := v)
  have hle := BitVec.le_toInt (x := v)
  have hsigned : (if Strto.negative text then -(Strto.number text : Int) else Strto.number text) =
      v.toInt := by
    rw [h.number, h.negative]
    split_ifs with hneg
    · rw [decide_eq_true_eq] at hneg
      omega
    · rw [decide_eq_true_eq] at hneg
      omega
  have hrange : max (-2 ^ 63) (min v.toInt (2 ^ 63 - 1)) = v.toInt := by omega
  rw [Strto.longValue, hsigned, hrange, BitVec.ofInt_toInt]

end

end VillasNode.Line
