import Mathlib.Algebra.Group.Int.Defs
import Mathlib.Data.List.TakeWhile
import VillasNode.Lib.ByteOrder

/-!
# Numbers read by the C library

`strtoul`, `strtol` and `strtod` on a text that ends with a NUL. A scan takes
what it accepts off the front of a text. The key fact is that a scan does not
get past a byte that no number contains, except when this byte is white space
in front of the number.
-/

namespace Strto

open ByteOrder

def ch (c : Char) : Byte := BitVec.ofNat 8 c.toNat

def isSpace (b : Byte) : Bool := b.toNat = 32 ∨ 9 ≤ b.toNat ∧ b.toNat ≤ 13

def isDigit (b : Byte) : Bool := 48 ≤ b.toNat ∧ b.toNat ≤ 57

def isAlpha (b : Byte) : Bool := 65 ≤ b.toNat ∧ b.toNat ≤ 90 ∨ 97 ≤ b.toNat ∧ b.toNat ≤ 122

def isHexDigit (b : Byte) : Bool :=
  isDigit b ∨ 65 ≤ b.toNat ∧ b.toNat ≤ 70 ∨ 97 ≤ b.toNat ∧ b.toNat ≤ 102

def isSign (b : Byte) : Bool := b = ch '+' ∨ b = ch '-'

/-- The letter in any case. -/
def isLetter (c : Char) (b : Byte) : Bool := b = ch c ∨ b = ch c.toUpper

/-- A byte that may stand in a number. -/
def inNumber (b : Byte) : Bool :=
  isAlpha b ∨ isDigit b ∨ isSign b ∨ b = ch '.' ∨ b = ch '(' ∨ b = ch ')' ∨ b = ch '_'

/-! ## Scans -/

/-- What is left of a text, or `none` when it does not begin as expected. -/
abbrev Scan := List Byte → Option (List Byte)

namespace Scan

def one (p : Byte → Bool) : Scan
  | [] => none
  | b :: s => if p b then some s else none

def many (p : Byte → Bool) : Scan := fun s => some (s.dropWhile p)

def andThen (f g : Scan) : Scan := fun s => (f s).bind g

def orElse (f g : Scan) : Scan := fun s => (f s).or (g s)

def optional (f : Scan) : Scan := fun s => some ((f s).getD s)

def word (cs : List Char) : Scan := cs.foldr (fun c f => (one (isLetter c)).andThen f) some

end Scan

open Scan

def digits (p : Byte → Bool) : Scan := (one p).andThen (many p)

/-- The subject sequence of `strtol` in base 10. -/
def integer : Scan := (optional (one isSign)).andThen (digits isDigit)

/-- Digits with at most one point. -/
def mantissa (p : Byte → Bool) : Scan :=
  ((digits p).andThen (optional ((one (· = ch '.')).andThen (many p)))).orElse
    ((one (· = ch '.')).andThen (digits p))

def exponent (marker : Char) : Scan :=
  optional ((one (isLetter marker)).andThen ((optional (one isSign)).andThen (digits isDigit)))

def nanChars : Scan :=
  (one (· = ch '(')).andThen
    ((many fun b => isAlpha b || isDigit b || decide (b = ch '_')).andThen (one (· = ch ')')))

/-- The subject sequence of `strtod`. -/
def real : Scan :=
  (optional (one isSign)).andThen
    ((word ['i', 'n', 'f', 'i', 'n', 'i', 't', 'y']).orElse
      ((word ['i', 'n', 'f']).orElse
        (((word ['n', 'a', 'n']).andThen (optional nanChars)).orElse
          (((word ['0', 'x']).andThen ((mantissa isHexDigit).andThen (exponent 'p'))).orElse
            ((mantissa isDigit).andThen (exponent 'e'))))))

/-- A scan behind any white space. -/
def spaced (f : Scan) : Scan := fun s => f (s.dropWhile isSpace)

/-! ## Where a scan ends -/

/-- The scan leaves less of the text. -/
def Moves (f : Scan) : Prop := ∀ ⦃s r⦄, f s = some r → r <:+ s ∧ r.length < s.length

def Cuts (f : Scan) : Prop := ∀ ⦃s r⦄, f s = some r → r <:+ s

/-- The scan does not look past `d`. -/
def Bounded (d : Byte) (f : Scan) : Prop := ∀ s b, f (s ++ d :: b) = (f s).map (· ++ d :: b)

section
variable {d : Byte} {f g : Scan} {p : Byte → Bool}

theorem Moves.cuts (h : Moves f) : Cuts f := fun _ _ hs => (h hs).1

theorem moves_one : Moves (one p) := by
  intro s r h
  cases s with
  | nil => cases h
  | cons b s =>
    simp only [one, Option.ite_none_right_eq_some, Option.some.injEq] at h
    rw [← h.2]
    exact ⟨List.suffix_cons b s, Nat.lt_succ_self _⟩

theorem cuts_many : Cuts (many p) := by
  intro s r h
  cases h
  exact List.dropWhile_suffix p

theorem Cuts.optional (h : Cuts f) : Cuts (optional f) := by
  intro s r hs
  simp only [Scan.optional, Option.some.injEq] at hs
  cases hf : f s with
  | none =>
    rw [hf] at hs
    rw [← hs]
    exact List.suffix_rfl
  | some t =>
    rw [hf] at hs
    rw [← hs]
    exact h hf

theorem Cuts.andThen (hf : Cuts f) (hg : Cuts g) : Cuts (f.andThen g) := by
  intro s r hs
  obtain ⟨t, ht, hr⟩ := Option.bind_eq_some_iff.mp hs
  exact (hg hr).trans (hf ht)

theorem Moves.andThen (hf : Moves f) (hg : Cuts g) : Moves (f.andThen g) := by
  intro s r hs
  obtain ⟨t, ht, hr⟩ := Option.bind_eq_some_iff.mp hs
  exact ⟨(hg hr).trans (hf ht).1, Nat.lt_of_le_of_lt (hg hr).length_le (hf ht).2⟩

theorem Cuts.moves (hf : Cuts f) (hg : Moves g) : Moves (f.andThen g) := by
  intro s r hs
  obtain ⟨t, ht, hr⟩ := Option.bind_eq_some_iff.mp hs
  exact ⟨(hg hr).1.trans (hf ht), Nat.lt_of_lt_of_le (hg hr).2 (hf ht).length_le⟩

theorem Moves.orElse (hf : Moves f) (hg : Moves g) : Moves (f.orElse g) := by
  intro s r hs
  rcases Option.or_eq_some_iff.mp hs with h | ⟨-, h⟩
  · exact hf h
  · exact hg h

theorem bounded_one (h : p d = false) : Bounded d (one p) := by
  intro s b
  cases s with
  | nil => simp [one, h]
  | cons c s => by_cases hc : p c <;> simp [one, hc]

theorem bounded_many (h : p d = false) : Bounded d (many p) := by
  intro s b
  simp only [many, List.dropWhile_append, Option.map_some, Option.some.injEq]
  split
  · rename_i hnil
    rw [List.isEmpty_iff] at hnil
    rw [hnil, List.dropWhile_cons_of_neg (by simp [h]), List.nil_append]
  · rfl

theorem Bounded.andThen (hf : Bounded d f) (hg : Bounded d g) : Bounded d (f.andThen g) := by
  intro s b
  simp only [Scan.andThen, hf s b]
  cases f s with
  | none => rfl
  | some t => exact hg t b

theorem Bounded.orElse (hf : Bounded d f) (hg : Bounded d g) : Bounded d (f.orElse g) := by
  intro s b
  simp only [Scan.orElse, hf s b, hg s b]
  cases f s <;> rfl

theorem Bounded.optional (hf : Bounded d f) : Bounded d (optional f) := by
  intro s b
  simp only [Scan.optional, hf s b]
  cases f s <;> rfl

theorem moves_word (c : Char) (cs : List Char) : Moves (word (c :: cs)) := by
  have hall : ∀ cs, Cuts (Scan.word cs) := by
    intro cs
    induction cs with
    | nil =>
      intro s r hs
      cases hs
      exact List.suffix_rfl
    | cons c cs ih => exact moves_one.cuts.andThen ih
  exact moves_one.andThen (hall cs)

theorem bounded_word {cs : List Char} (h : ∀ c ∈ cs, isLetter c d = false) : Bounded d (word cs) := by
  induction cs with
  | nil => intro s b; rfl
  | cons c cs ih =>
    exact (bounded_one (h c (by simp))).andThen (ih fun c hc => h c (by simp [hc]))

theorem moves_digits : Moves (digits p) := moves_one.andThen cuts_many

theorem bounded_digits (h : p d = false) : Bounded d (digits p) :=
  (bounded_one h).andThen (bounded_many h)

theorem moves_mantissa : Moves (mantissa p) := by
  apply Moves.orElse
  · exact moves_digits.andThen (moves_one.andThen cuts_many).cuts.optional
  · exact moves_one.andThen moves_digits.cuts

theorem bounded_mantissa (h : p d = false) (hpoint : d ≠ ch '.') : Bounded d (mantissa p) := by
  have hone : Bounded d (one (· = ch '.')) := bounded_one (by simpa using hpoint)
  apply Bounded.orElse
  · exact (bounded_digits h).andThen (hone.andThen (bounded_many h)).optional
  · exact hone.andThen (bounded_digits h)

theorem moves_integer : Moves integer := moves_one.cuts.optional.moves moves_digits

theorem cuts_exponent (marker : Char) : Cuts (exponent marker) :=
  (moves_one.andThen (moves_one.cuts.optional.moves moves_digits).cuts).cuts.optional

theorem moves_real : Moves real := by
  apply moves_one.cuts.optional.moves
  apply Moves.orElse
  · exact moves_word ..
  apply Moves.orElse
  · exact moves_word ..
  apply Moves.orElse
  · exact (moves_word ..).andThen
      (moves_one.andThen (cuts_many.moves moves_one).cuts).cuts.optional
  apply Moves.orElse
  · exact (moves_word ..).andThen (moves_mantissa.andThen (cuts_exponent _)).cuts
  · exact moves_mantissa.andThen (cuts_exponent _)

end

/-! ## Bytes that end a number -/

section
variable {d : Byte}

theorem not_digit (h : inNumber d = false) : isDigit d = false := by
  simp only [inNumber, decide_eq_false_iff_not, not_or] at h
  simpa using h.2.1

theorem not_alpha (h : inNumber d = false) : isAlpha d = false := by
  simp only [inNumber, decide_eq_false_iff_not, not_or] at h
  simpa using h.1

theorem not_sign (h : inNumber d = false) : isSign d = false := by
  simp only [inNumber, decide_eq_false_iff_not, not_or] at h
  simpa using h.2.2.1

theorem not_hexDigit (h : inNumber d = false) : isHexDigit d = false := by
  have halpha := not_alpha h
  simp only [isAlpha, decide_eq_false_iff_not] at halpha
  simp only [isHexDigit, not_digit h, decide_eq_false_iff_not]
  simp only [Bool.false_eq_true, false_or]
  omega

theorem not_letter {c : Char} (h : inNumber d = false)
    (hc : inNumber (ch c) = true ∧ inNumber (ch c.toUpper) = true) : isLetter c d = false := by
  simp only [isLetter, decide_eq_false_iff_not, not_or]
  constructor <;> rintro rfl <;> simp_all

theorem bounded_integer (h : inNumber d = false) : Bounded d integer :=
  (bounded_one (not_sign h)).optional.andThen (bounded_digits (not_digit h))

theorem bounded_exponent (h : inNumber d = false) {marker : Char}
    (hc : inNumber (ch marker) = true ∧ inNumber (ch marker.toUpper) = true) :
    Bounded d (exponent marker) :=
  ((bounded_one (not_letter h hc)).andThen (bounded_integer h)).optional

theorem bounded_real (h : inNumber d = false) : Bounded d real := by
  have hword : ∀ cs : List Char,
      cs.all (fun c => inNumber (ch c) && inNumber (ch c.toUpper)) → Bounded d (word cs) := by
    intro cs hcs
    apply bounded_word
    intro c hc
    have hboth := List.all_eq_true.mp hcs c hc
    rw [Bool.and_eq_true] at hboth
    exact not_letter h hboth
  have hother := h
  simp only [inNumber, decide_eq_false_iff_not, not_or] at hother
  obtain ⟨-, -, -, hpoint, hleft, hright, hunder⟩ := hother
  apply (bounded_one (not_sign h)).optional.andThen
  apply (hword _ (by decide)).orElse
  apply (hword _ (by decide)).orElse
  apply Bounded.orElse
  · apply (hword _ (by decide)).andThen
    apply Bounded.optional
    apply (bounded_one (by simpa using hleft)).andThen
    apply (bounded_many (by simp [not_alpha h, not_digit h, hunder])).andThen
    exact bounded_one (by simpa using hright)
  apply Bounded.orElse
  · apply (hword _ (by decide)).andThen
    exact (bounded_mantissa (not_hexDigit h) hpoint).andThen (bounded_exponent h (by decide))
  · exact (bounded_mantissa (not_digit h) hpoint).andThen (bounded_exponent h (by decide))

end

/-! ## White space -/

/-- The scan of `s` ends where it does, when `d` and `b` follow. -/
def Keeps (f : Scan) (d : Byte) (b s : List Byte) : Prop :=
  spaced f (s ++ d :: b) = (spaced f s).map (· ++ d :: b)

section
variable {d : Byte} {f : Scan} {s r b : List Byte}

theorem Moves.spaced (h : Moves f) : Moves (spaced f) := by
  intro s r hs
  obtain ⟨hsuffix, hlt⟩ := h hs
  have hdrop := List.dropWhile_suffix (l := s) isSpace
  exact ⟨hsuffix.trans hdrop, Nat.lt_of_lt_of_le hlt hdrop.length_le⟩

theorem spaced_blank (hs : s.all isSpace) (hd : isSpace d) : spaced f (s ++ d :: b) = spaced f b := by
  unfold spaced
  rw [List.dropWhile_append_of_pos (by simpa using hs), List.dropWhile_cons_of_pos hd]

theorem Bounded.spaced (hf : Bounded d f) (h : ¬ (s.all isSpace ∧ isSpace d)) :
    spaced f (s ++ d :: b) = (spaced f s).map (· ++ d :: b) := by
  unfold Strto.spaced
  by_cases hs : s.all isSpace
  · have hd : ¬ isSpace d := fun hd => h ⟨hs, hd⟩
    have hnil : s.dropWhile isSpace = [] := List.dropWhile_eq_nil_iff.mpr (by simpa using hs)
    rw [List.dropWhile_append_of_pos (by simpa using hs), List.dropWhile_cons_of_neg hd, hnil]
    exact hf [] b
  · have hne : (s.dropWhile isSpace).isEmpty = false := by
      rw [List.isEmpty_eq_false_iff, Ne, List.dropWhile_eq_nil_iff]
      simpa using hs
    rw [List.dropWhile_append, hne]
    exact hf _ b

theorem spaced_all (hf : f [] = none) (hs : s.all isSpace) : spaced f s = none := by
  unfold spaced
  rw [List.dropWhile_eq_nil_iff.mpr (by simpa using hs), hf]

theorem keeps_blank (hf : f [] = none) (hs : s.all isSpace) (hd : isSpace d) :
    Keeps f d b s ↔ (spaced f b).isSome = false := by
  rw [Keeps, spaced_blank hs hd, spaced_all hf hs, Option.map_none, Option.isSome_eq_false_iff,
    Option.isNone_iff_eq_none]

end

/-- The text behind the white space and in front of the end `r`. -/
def token (s r : List Byte) : List Byte :=
  (s.dropWhile isSpace).take ((s.dropWhile isSpace).length - r.length)

/-! ## Cursors -/

/-- A pointer into a text: its distance from the start, and the bytes from there on. -/
structure Cursor where
  pos : Nat
  rest : List Byte
deriving DecidableEq

/-- A call reads no byte outside of these. -/
structure Look where
  start : Nat
  size : Nat
deriving DecidableEq

namespace Cursor

/-- `*ptr` -/
def peek (c : Cursor) : Byte := c.rest.headD 0

/-- `ptr + 1` -/
def next (c : Cursor) : Cursor := ⟨c.pos + 1, c.rest.tail⟩

/-- The pointer to the end `r` of the text. -/
def upTo (c : Cursor) (r : List Byte) : Cursor := ⟨c.pos + (c.rest.length - r.length), r⟩

/-- The text that a scan accepts, without the white space, and where it ends. Without a number that
is no text, and the pointer that was given. -/
def convert (c : Cursor) (f : Scan) : List Byte × Cursor :=
  match spaced f c.rest with
  | none => ([], c)
  | some r => (token c.rest r, c.upTo r)

/-- White space, then bytes that may stand in a number, and the one byte that may not. -/
def look (c : Cursor) : Look :=
  ⟨c.pos, (c.rest.takeWhile isSpace).length +
    ((c.rest.dropWhile isSpace).takeWhile inNumber).length + 1⟩

/-- The same pointer when the text goes on with `t`. -/
def append (c : Cursor) (t : List Byte) : Cursor := ⟨c.pos, c.rest ++ t⟩

/-- The same pointer when there are `k` more bytes in front of the text. -/
def shift (c : Cursor) (k : Nat) : Cursor := ⟨c.pos + k, c.rest⟩

@[simp] theorem append_pos (c : Cursor) (t : List Byte) : (c.append t).pos = c.pos := rfl

@[simp] theorem append_rest (c : Cursor) (t : List Byte) : (c.append t).rest = c.rest ++ t := rfl

@[simp] theorem shift_pos (c : Cursor) (k : Nat) : (c.shift k).pos = c.pos + k := rfl

@[simp] theorem shift_peek (c : Cursor) (k : Nat) : (c.shift k).peek = c.peek := rfl

@[simp] theorem next_pos (c : Cursor) : c.next.pos = c.pos + 1 := rfl

@[simp] theorem upTo_rest (c : Cursor) (r : List Byte) : (c.upTo r).rest = r := rfl

@[simp] theorem upTo_self (c : Cursor) : c.upTo c.rest = c := by simp [upTo]

theorem le_upTo (c : Cursor) (r : List Byte) : c.pos ≤ (c.upTo r).pos := Nat.le_add_right ..

theorem upTo_append (c : Cursor) (r t : List Byte) :
    (c.append t).upTo (r ++ t) = (c.upTo r).append t := by
  simp only [upTo, append, List.length_append, mk.injEq, and_true]
  omega

theorem upTo_upTo {c : Cursor} {r u : List Byte} (hr : r <:+ c.rest) (hu : u <:+ r) :
    (c.upTo r).upTo u = c.upTo u := by
  have := hr.length_le
  have := hu.length_le
  simp only [upTo, mk.injEq, and_true]
  omega

theorem upTo_next {c : Cursor} {r : List Byte} (hr : r <:+ c.rest) (hne : r ≠ []) :
    (c.upTo r).next = c.upTo r.tail := by
  have := hr.length_le
  have := List.length_pos_iff.mpr hne
  simp only [upTo, next, List.length_tail, mk.injEq, and_true]
  omega

theorem next_append {c : Cursor} (hne : c.rest ≠ []) (t : List Byte) :
    (c.append t).next = c.next.append t := by
  simp only [next, append, mk.injEq, true_and]
  exact List.tail_append_of_ne_nil hne

theorem peek_append_class {p : Byte → Bool} {d : Byte} (hd : p d = false) (h0 : p 0 = false)
    (c : Cursor) (b : List Byte) : p (c.append (d :: b)).peek = p c.peek := by
  unfold peek append
  cases c.rest with
  | nil => exact hd.trans h0.symm
  | cons _ _ => rfl

end Cursor

/-! ## Values -/

def number (text : List Byte) : Nat :=
  (text.filter isDigit).foldl (fun n b => 10 * n + (b.toNat - 48)) 0

def negative (text : List Byte) : Bool := text.contains (ch '-')

def ulongValue (text : List Byte) : BitVec 64 :=
  if 2 ^ 64 ≤ number text then BitVec.allOnes 64
  else if negative text then -BitVec.ofNat 64 (number text)
  else BitVec.ofNat 64 (number text)

def longValue (text : List Byte) : BitVec 64 :=
  let n : Int := if negative text then -number text else number text
  BitVec.ofInt 64 (max (-2 ^ 63) (min n (2 ^ 63 - 1)))

def strtoul (ptr : Cursor) : BitVec 64 × Cursor :=
  let (text, stop) := ptr.convert integer
  (ulongValue text, stop)

def strtol (ptr : Cursor) : BitVec 64 × Cursor :=
  let (text, stop) := ptr.convert integer
  (longValue text, stop)

section
variable {d : Byte} {f : Scan} {c : Cursor} {r b : List Byte}

theorem convert_some (h : spaced f c.rest = some r) :
    c.convert f = (token c.rest r, c.upTo r) := by
  simp only [Cursor.convert, h]

theorem convert_none (h : spaced f c.rest = none) : c.convert f = ([], c) := by
  simp only [Cursor.convert, h]

theorem convert_pos_iff (hf : Moves f) : (c.convert f).2.pos = c.pos ↔ spaced f c.rest = none := by
  cases h : spaced f c.rest with
  | none => simp [convert_none h]
  | some r =>
    obtain ⟨-, hlt⟩ := hf.spaced h
    rw [convert_some h]
    simp only [reduceCtorEq, iff_false, Cursor.upTo]
    omega

theorem convert_length (hf : Moves f) :
    (c.convert f).2.pos + (c.convert f).2.rest.length = c.pos + c.rest.length := by
  cases h : spaced f c.rest with
  | none => rw [convert_none h]
  | some r =>
    obtain ⟨-, hlt⟩ := hf.spaced h
    rw [convert_some h]
    dsimp only [Cursor.upTo]
    omega

theorem convert_shift (c : Cursor) (k : Nat) (f : Scan) :
    (c.shift k).convert f = ((c.convert f).1, (c.convert f).2.shift k) := by
  unfold Cursor.convert
  cases h : spaced f c.rest with
  | none => simp only [Cursor.shift, h]
  | some r => simp only [Cursor.shift, h, Cursor.upTo, Nat.add_right_comm]

theorem token_append {s : List Byte} (hmoves : Moves f) (hs : spaced f s = some r) :
    token (s ++ d :: b) (r ++ d :: b) = token s r := by
  have hlt : r.length < (s.dropWhile isSpace).length := (hmoves hs).2
  have hne : (s.dropWhile isSpace).isEmpty = false := by
    rw [List.isEmpty_eq_false_iff, ← List.length_pos_iff]
    omega
  unfold token
  rw [List.dropWhile_append, hne]
  simp only [Bool.false_eq_true, if_false, List.length_append, Nat.add_sub_add_right]
  exact List.take_append_of_le_length (Nat.sub_le ..)

theorem token_ne (hmoves : Moves f) {s : List Byte} (hs : spaced f s = some r) : token s r ≠ [] := by
  have hlt : r.length < (s.dropWhile isSpace).length := (hmoves hs).2
  intro hnil
  have hlen := congrArg List.length hnil
  simp only [token, List.length_take, List.length_nil] at hlen
  omega

theorem Keeps.convert (h : Keeps f d b c.rest) (hmoves : Moves f) :
    (c.append (d :: b)).convert f = ((c.convert f).1, (c.convert f).2.append (d :: b)) := by
  have hspaced : spaced f (c.append (d :: b)).rest = (spaced f c.rest).map (· ++ d :: b) := h
  cases hs : spaced f c.rest with
  | none =>
    rw [hs] at hspaced
    rw [convert_none hspaced, convert_none hs]
  | some r =>
    rw [hs] at hspaced
    rw [convert_some hspaced, convert_some hs]
    simp only [Cursor.upTo_append, Cursor.append_rest, token_append hmoves hs]

theorem convert_append (hf : Bounded d f) (hmoves : Moves f)
    (h : ¬ (c.rest.all isSpace ∧ isSpace d)) :
    (c.append (d :: b)).convert f = ((c.convert f).1, (c.convert f).2.append (d :: b)) :=
  Keeps.convert (hf.spaced h) hmoves

theorem look_append (hd : inNumber d = false) (h : ¬ (c.rest.all isSpace ∧ isSpace d)) :
    (c.append (d :: b)).look = c.look := by
  simp only [Cursor.look, Cursor.append, Look.mk.injEq, true_and]
  by_cases hs : c.rest.all isSpace
  · have hd' : ¬ isSpace d := fun hd => h ⟨hs, hd⟩
    have hs' : ∀ x ∈ c.rest, isSpace x := by simpa using hs
    have hnil : c.rest.dropWhile isSpace = [] := List.dropWhile_eq_nil_iff.mpr hs'
    rw [List.takeWhile_append_of_pos hs', List.dropWhile_append_of_pos hs', hnil,
      List.takeWhile_eq_self_iff.mpr hs']
    simp [hd', hd]
  · have hne : (c.rest.dropWhile isSpace).isEmpty = false := by
      rw [List.isEmpty_eq_false_iff, Ne, List.dropWhile_eq_nil_iff]
      simpa using hs
    have hlen : (c.rest.takeWhile isSpace).length ≠ c.rest.length := by
      have hsplit := congrArg List.length
        (List.takeWhile_append_dropWhile (p := isSpace) (l := c.rest))
      rw [List.length_append] at hsplit
      rw [List.isEmpty_eq_false_iff, ← List.length_pos_iff] at hne
      omega
    rw [List.takeWhile_append, List.dropWhile_append, hne, if_neg hlen]
    simp only [Bool.false_eq_true, if_false, List.takeWhile_append]
    split
    · rename_i hall
      rw [List.takeWhile_cons_of_neg (by simp [hd]), List.append_nil, hall]
    · rfl

/-! White space in front of a number is skipped. -/

theorem spaced_behind {pre s : List Byte} (hpre : pre.all isSpace) : spaced f (pre ++ s) = spaced f s := by
  unfold spaced
  rw [List.dropWhile_append_of_pos (by simpa using hpre)]

theorem convert_behind {pre s : List Byte} {p : Nat} (hf : Moves f) (hpre : pre.all isSpace)
    (hs : spaced f s = some r) :
    (⟨p, pre ++ s⟩ : Cursor).convert f = (⟨p + pre.length, s⟩ : Cursor).convert f := by
  have hlt := (hf.spaced hs).2
  rw [convert_some (c := ⟨p, pre ++ s⟩) ((spaced_behind hpre).trans hs),
    convert_some (c := ⟨p + pre.length, s⟩) hs]
  simp only [Cursor.upTo, token, List.length_append, Prod.mk.injEq, Cursor.mk.injEq, and_true]
  rw [List.dropWhile_append_of_pos (by simpa using hpre)]
  exact ⟨rfl, by omega⟩

theorem look_behind {pre s : List Byte} {p : Nat} (hpre : pre.all isSpace) :
    (⟨p, pre ++ s⟩ : Cursor).look = ⟨p, pre.length + (⟨p + pre.length, s⟩ : Cursor).look.size⟩ := by
  have hall : ∀ x ∈ pre, isSpace x := by simpa using hpre
  unfold Cursor.look
  rw [List.takeWhile_append_of_pos hall, List.dropWhile_append_of_pos hall, List.length_append]
  simp only [Nat.add_assoc]

theorem look_le (c : Cursor) : c.look.start + c.look.size ≤ c.pos + c.rest.length + 1 := by
  have hspace := congrArg List.length (List.takeWhile_append_dropWhile (p := isSpace) (l := c.rest))
  have hnumber := (List.takeWhile_prefix (l := c.rest.dropWhile isSpace) inNumber).length_le
  rw [List.length_append] at hspace
  simp only [Cursor.look]
  omega

end

/-! ## Numbers in any base -/

def isOctalDigit (b : Byte) : Bool := 48 ≤ b.toNat ∧ b.toNat ≤ 55

/-- The subject sequence of `strtol` in base 0. -/
def anyInteger : Scan :=
  (optional (one isSign)).andThen
    (((word ['0', 'x']).andThen (digits isHexDigit)).orElse
      (((one (· = ch '0')).andThen (many isOctalDigit)).orElse (digits isDigit)))

def digitValue (b : Byte) : Nat :=
  if isDigit b then b.toNat - 48 else if b.toNat < 97 then b.toNat - 55 else b.toNat - 87

def numberIn (base : Nat) (text : List Byte) : Nat := text.foldl (fun n b => base * n + digitValue b) 0

/-- In base 16 behind `0x`, and in base 8 behind `0`. -/
def anyNumber (text : List Byte) : Nat :=
  match text.dropWhile isSign with
  | a :: b :: text =>
    if a ≠ ch '0' then numberIn 10 (a :: b :: text)
    else if isLetter 'x' b then numberIn 16 text
    else numberIn 8 (b :: text)
  | text => numberIn 10 text

def anyLongValue (text : List Byte) : BitVec 64 :=
  let n : Int := if negative text then -anyNumber text else anyNumber text
  BitVec.ofInt 64 (max (-2 ^ 63) (min n (2 ^ 63 - 1)))

/-- `strtol(ptr, &end, 0)` -/
def strtolAny (ptr : Cursor) : BitVec 64 × Cursor :=
  let (text, stop) := ptr.convert anyInteger
  (anyLongValue text, stop)

end Strto
