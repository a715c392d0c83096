import Mathlib.Algebra.GroupWithZero.Nat
import VillasNode.Format.Numerals
import VillasNode.Lib.MachineInt

/-!
# Types of signals as a string

`signal_list_generate2` of `lib/signal_list.cpp`: a type letter for each group of
signals, behind their number. The number is read by `strtoul`, which accepts more
than digits, and kept as an `int`.
-/

namespace VillasNode.SignalString

open ByteOrder Strto Line MachineInt

/-! ## The code -/

def signalTypeFromFmtstr (c : Byte) : SignalType :=
  if c = ch 'f' then .float
  else if c = ch 'i' then .integer
  else if c = ch 'c' then .complex
  else if c = ch 'b' then .boolean
  else .invalid

/-- A signal with its name and type, and no unit. -/
abbrev Signal := List Byte × SignalType

/-- `"signal%d"` -/
def signalName (i : Nat) : List Byte := ascii "signal" ++ decimalPadded 0 (toInt i)

/-- The loop over `t`, for `n` more turns at most. Each turn takes at least one byte. -/
def generateLoop : Nat → Cursor → Nat → List Signal → List Signal × Int
  | 0, _, _, list => (list, 0)
  | n + 1, t, i, list =>
    if t.rest = [] then (list, 0)
    else
      let (value, e) := strtoul t
      let len := if e.pos = t.pos then 1 else toInt value.toNat
      match signalTypeFromFmtstr e.peek with
      | .invalid => (list, -1)
      | typ =>
        generateLoop n e.next (i + len.toNat)
          (list ++ (List.range' i len.toNat).map fun j => (signalName j, typ))

/-- `signal_list_generate2` for an empty list: the list, and what is returned. -/
def signalListGenerate2 (dt : List Byte) : List Signal × Int := generateLoop dt.length ⟨0, dt⟩ 0 []

/-! ## The specification -/

/-- The letter of a type. -/
def letter : SignalType → Byte
  | .float => ch 'f'
  | .integer => ch 'i'
  | .complex => ch 'c'
  | .boolean => ch 'b'
  | .invalid => 0

/-- A group of signals, with all that `strtoul` accepts in front of the digits. -/
structure Group where
  blank : List Byte
  sign : List Byte
  digits : List Byte
  type : SignalType
  blank_ok : ∀ b ∈ blank, isSpace b
  sign_ok : sign = [] ∨ ∃ b, isSign b ∧ sign = [b]
  digits_ok : ∀ b ∈ digits, isDigit b
  counted : digits = [] → blank = [] ∧ sign = []
  valid : type ≠ .invalid

namespace Group

def text (g : Group) : List Byte := g.blank ++ (g.sign ++ (g.digits ++ [letter g.type]))

/-- `[0-9]*[fibc]` -/
def Strict (g : Group) : Prop := g.blank = [] ∧ g.sign = []

def count (g : Group) : Nat := if g.digits = [] then 1 else number g.digits

end Group

def text (gs : List Group) : List Byte := gs.flatMap Group.text

def Accepted (dt : List Byte) (gs : List Group) : Prop := (∀ g ∈ gs, g.Strict) ∧ dt = text gs

def types (gs : List Group) : List SignalType := gs.flatMap fun g => List.replicate g.count g.type

/-- The signals with their names. -/
def named (types : List SignalType) : List Signal :=
  types.zipIdx.map fun (type, i) => (ascii "signal" ++ decimal i, type)

/-- The string makes the signals that it says, or is rejected. -/
structure Exact (dt : List Byte) : Prop where
  accepts : ∀ gs, Accepted dt gs → signalListGenerate2 dt = (named (types gs), 0)
  rejects : (¬ ∃ gs, Accepted dt gs) → (signalListGenerate2 dt).2 = -1

/-! ## When it is met -/

/-- Each number is an `int`, also that of the last signal. And no number has white space or a sign in
front of it, unless the string is malformed elsewhere. -/
structure Plain (dt : List Byte) : Prop where
  counts : ∀ gs, Accepted dt gs → (∀ g ∈ gs, g.count < 2 ^ 31) ∧ (types gs).length ≤ 2 ^ 31
  strict : (∃ gs, dt = text gs) → ∃ gs, Accepted dt gs

/-! ## Numbers -/

theorem letter_fromFmtstr {c : Byte} {type : SignalType} (h : signalTypeFromFmtstr c = type)
    (hvalid : type ≠ .invalid) : c = letter type := by
  unfold signalTypeFromFmtstr at h
  split at h
  · rename_i hc
    rw [← h, hc]
    rfl
  split at h
  · rename_i hc
    rw [← h, hc]
    rfl
  split at h
  · rename_i hc
    rw [← h, hc]
    rfl
  split at h
  · rename_i hc
    rw [← h, hc]
    rfl
  · exact absurd h.symm hvalid

theorem fromFmtstr_letter {type : SignalType} (hvalid : type ≠ .invalid) :
    signalTypeFromFmtstr (letter type) = type ∧ isDigit (letter type) = false ∧
      isSign (letter type) = false ∧ isSpace (letter type) = false := by
  cases type with
  | invalid => exact absurd rfl hvalid
  | float => decide
  | integer => decide
  | boolean => decide
  | complex => decide

section
variable {blank sign ds s r : List Byte}

theorem digits_scan (hne : ds ≠ []) (hds : ∀ b ∈ ds, isDigit b) (hr : ∀ b ∈ r.head?, isDigit b = false) :
    Strto.digits isDigit (ds ++ r) = some r := by
  obtain ⟨b, ds, rfl⟩ := List.exists_cons_of_ne_nil hne
  rw [List.forall_mem_cons] at hds
  simp only [Strto.digits, Scan.andThen, Scan.one, Scan.many, List.cons_append, hds.1, if_true,
    Option.bind_some]
  rw [List.dropWhile_append_of_pos hds.2]
  cases r with
  | nil => rfl
  | cons c r => rw [List.dropWhile_cons_of_neg (by simp [hr c rfl])]

theorem digits_some (h : Strto.digits isDigit s = some r) :
    ∃ ds, ds ≠ [] ∧ (∀ b ∈ ds, isDigit b) ∧ s = ds ++ r := by
  cases s with
  | nil => cases h
  | cons b s =>
    simp only [Strto.digits, Scan.andThen, Scan.one] at h
    split at h
    · rename_i hb
      cases h
      refine ⟨b :: s.takeWhile isDigit, by simp, ?_, ?_⟩
      · rw [List.forall_mem_cons]
        exact ⟨hb, fun c hc => List.mem_takeWhile_imp hc⟩
      · rw [List.cons_append, List.takeWhile_append_dropWhile]
    · cases h

theorem sign_not_space {b : Byte} (h : isSign b) : isSpace b = false := by
  unfold isSign at h
  rw [decide_eq_true_eq] at h
  rcases h with rfl | rfl
  · decide
  · decide

theorem spaced_integer (hblank : ∀ b ∈ blank, isSpace b) (hsign : sign = [] ∨ ∃ b, isSign b ∧ sign = [b])
    (hne : ds ≠ []) (hds : ∀ b ∈ ds, isDigit b) (hr : ∀ b ∈ r.head?, isDigit b = false) :
    spaced integer (blank ++ (sign ++ (ds ++ r))) = some r ∧
      token (blank ++ (sign ++ (ds ++ r))) r = sign ++ ds := by
  obtain ⟨d, ds', hcons⟩ := List.exists_cons_of_ne_nil hne
  have hd : isDigit d := hds d (by simp [hcons])
  have hdrop : (blank ++ (sign ++ (ds ++ r))).dropWhile isSpace = sign ++ (ds ++ r) := by
    rw [List.dropWhile_append_of_pos hblank]
    rcases hsign with rfl | ⟨b, hb, rfl⟩
    · rw [hcons]
      exact List.dropWhile_cons_of_neg (by simp [digit_not_space hd])
    · exact List.dropWhile_cons_of_neg (by simp [sign_not_space hb])
  constructor
  · unfold spaced
    rw [hdrop]
    unfold integer Scan.andThen Scan.optional
    have hrest : (Scan.one isSign (sign ++ (ds ++ r))).getD (sign ++ (ds ++ r)) = ds ++ r := by
      rcases hsign with rfl | ⟨b, hb, rfl⟩
      · rw [hcons]
        simp [Scan.one, digit_not_sign hd]
      · simp [Scan.one, hb]
    rw [hrest, Option.bind_some]
    exact digits_scan hne hds hr
  · unfold token
    rw [hdrop, ← List.append_assoc, List.length_append, Nat.add_sub_cancel]
    exact List.take_left

theorem spaced_integer_some (h : spaced integer s = some r) :
    ∃ blank sign ds, (∀ b ∈ blank, isSpace b) ∧ (sign = [] ∨ ∃ b, isSign b ∧ sign = [b]) ∧ ds ≠ [] ∧
      (∀ b ∈ ds, isDigit b) ∧ s = blank ++ (sign ++ (ds ++ r)) := by
  unfold spaced integer Scan.andThen Scan.optional at h
  rw [Option.bind_some] at h
  obtain ⟨ds, hne, hds, hrest⟩ := digits_some h
  have hsplit : ∃ sign, (sign = [] ∨ ∃ b, isSign b ∧ sign = [b]) ∧
      s.dropWhile isSpace = sign ++ (ds ++ r) := by
    rw [← hrest]
    cases s.dropWhile isSpace with
    | nil => exact ⟨[], .inl rfl, rfl⟩
    | cons b s' =>
      by_cases hb : isSign b
      · exact ⟨[b], .inr ⟨b, hb, rfl⟩, by simp [Scan.one, hb]⟩
      · exact ⟨[], .inl rfl, by simp [Scan.one, hb]⟩
  obtain ⟨sign, hsign, hdrop⟩ := hsplit
  refine ⟨s.takeWhile isSpace, sign, ds, fun b hb => List.mem_takeWhile_imp hb, hsign, hne, hds, ?_⟩
  rw [← hdrop, List.takeWhile_append_dropWhile]

end

/-! ## One turn of the loop -/

namespace Group

/-- The signals that the code makes for a group. -/
def taken (g : Group) : Nat :=
  if g.digits = [] then 1 else (toInt (ulongValue (g.sign ++ g.digits)).toNat).toNat

theorem letter_head (g : Group) (rest : List Byte) :
    ∀ b ∈ (letter g.type :: rest).head?, isDigit b = false := by
  rintro _ ⟨⟩
  exact (fromFmtstr_letter g.valid).2.1

theorem text_append (g : Group) (rest : List Byte) :
    g.text ++ rest = g.blank ++ (g.sign ++ (g.digits ++ letter g.type :: rest)) := by
  simp [text]

theorem strtoul_text (g : Group) (p : Nat) (rest : List Byte) :
    ∃ value p', strtoul ⟨p, g.text ++ rest⟩ = (value, ⟨p', letter g.type :: rest⟩) ∧
      (if p' = p then 1 else toInt value.toNat).toNat = g.taken := by
  obtain ⟨hletter, hdigit, hsign, hspace⟩ := fromFmtstr_letter g.valid
  unfold strtoul taken
  by_cases hnone : g.digits = []
  · have htext : g.text ++ rest = letter g.type :: rest := by
      obtain ⟨hblank, hsign⟩ := g.counted hnone
      rw [text_append, hblank, hsign, hnone]
      rfl
    have hspaced : spaced integer (letter g.type :: rest) = none := by
      simp [spaced, integer, Scan.andThen, Scan.optional, Scan.one, Strto.digits, hspace, hsign, hdigit]
    rw [htext, convert_none hspaced, if_pos hnone]
    exact ⟨_, p, rfl, by rw [if_pos rfl]; rfl⟩
  · obtain ⟨hspaced, htoken⟩ := spaced_integer g.blank_ok g.sign_ok hnone g.digits_ok (g.letter_head rest)
    rw [← text_append] at hspaced htoken
    have hmoved : ((⟨p, g.text ++ rest⟩ : Cursor).convert integer).2.pos ≠ p := by
      rw [Ne, convert_pos_iff moves_integer, hspaced]
      exact Option.some_ne_none _
    rw [convert_some hspaced] at hmoved ⊢
    rw [htoken, if_neg hnone]
    exact ⟨_, _, rfl, congrArg Int.toNat (if_neg hmoved)⟩

end Group

/-- The signals that the code makes, with the names that it gives them. -/
def produced (i : Nat) (types : List SignalType) : List Signal :=
  (types.zipIdx i).map fun (type, j) => (signalName j, type)

theorem produced_append (i : Nat) (ts us : List SignalType) :
    produced i (ts ++ us) = produced i ts ++ produced (i + ts.length) us := by
  unfold produced
  rw [List.zipIdx_append, List.map_append]

theorem produced_replicate (i n : Nat) (type : SignalType) :
    produced i (List.replicate n type) = (List.range' i n).map fun j => (signalName j, type) := by
  induction n generalizing i with
  | zero => rfl
  | succ n ih =>
    rw [List.replicate_succ, List.range'_succ, List.map_cons, ← ih]
    rfl

def takenTypes (gs : List Group) : List SignalType := gs.flatMap fun g => List.replicate g.taken g.type

section
variable {n i p : Nat} {list : List Signal}

theorem generateLoop_group (g : Group) (rest : List Byte) :
    ∃ p', generateLoop (n + 1) ⟨p, g.text ++ rest⟩ i list =
      generateLoop n ⟨p', rest⟩ (i + g.taken)
        (list ++ produced i (List.replicate g.taken g.type)) := by
  obtain ⟨value, p', hvalue, hlen⟩ := g.strtoul_text p rest
  obtain ⟨hletter, -⟩ := fromFmtstr_letter g.valid
  have hne : g.text ++ rest ≠ [] := by simp [Group.text]
  refine ⟨p' + 1, ?_⟩
  rw [generateLoop, if_neg hne, hvalue]
  have hpeek : (⟨p', letter g.type :: rest⟩ : Cursor).peek = letter g.type := rfl
  dsimp only
  rw [hpeek, hletter, produced_replicate, ← hlen]
  have hvalid := g.valid
  cases htype : g.type with
  | invalid => exact absurd htype hvalid
  | float => rfl
  | integer => rfl
  | boolean => rfl
  | complex => rfl

theorem generateLoop_reject {s : List Byte} (hne : s ≠ []) (h : ∀ (g : Group) rest, s ≠ g.text ++ rest) :
    generateLoop (n + 1) ⟨p, s⟩ i list = (list, -1) := by
  have hinvalid : signalTypeFromFmtstr (strtoul ⟨p, s⟩).2.peek = .invalid := by
    by_contra hvalid
    generalize htype : signalTypeFromFmtstr (strtoul ⟨p, s⟩).2.peek = type at hvalid
    have hletter := letter_fromFmtstr htype hvalid
    have hcons : ∀ r : List Byte, r.headD 0 = letter type → r = letter type :: r.tail := by
      intro r hr
      cases r with
      | nil =>
        have htype := (fromFmtstr_letter hvalid).1
        rw [show letter type = 0 from hr.symm] at htype
        exact absurd (htype.symm.trans (by decide)) hvalid
      | cons b r =>
        cases hr
        rfl
    unfold strtoul at hletter
    cases hspaced : spaced integer s with
    | none =>
      rw [convert_none hspaced] at hletter
      let g : Group := ⟨[], [], [], type, by simp, .inl rfl, by simp, fun _ => ⟨rfl, rfl⟩, hvalid⟩
      exact h g s.tail (hcons s hletter)
    | some r =>
      rw [convert_some hspaced] at hletter
      obtain ⟨blank, sign, ds, hblank, hsign, hds, hdigits, rfl⟩ := spaced_integer_some hspaced
      let g : Group := ⟨blank, sign, ds, type, hblank, hsign, hdigits, fun hnil => absurd hnil hds, hvalid⟩
      apply h g r.tail
      have hr : r = letter g.type :: r.tail := hcons r hletter
      rw [g.text_append, ← hr]
  unfold generateLoop
  rw [if_neg hne]
  dsimp only
  rw [hinvalid]

/-! ## The whole string -/

theorem text_length_pos (g : Group) : 0 < g.text.length := by
  simp only [Group.text, List.length_append, List.length_singleton]
  omega

theorem generateLoop_text {gs : List Group} (hn : (text gs).length ≤ n) :
    generateLoop n ⟨p, text gs⟩ i list = (list ++ produced i (takenTypes gs), 0) := by
  induction gs generalizing n i p list with
  | nil =>
    rw [show produced i (takenTypes []) = [] from rfl, List.append_nil]
    cases n with
    | zero => rfl
    | succ n => exact if_pos rfl
  | cons g gs ih =>
    have htext : text (g :: gs) = g.text ++ text gs := List.flatMap_cons
    have htypes : takenTypes (g :: gs) = List.replicate g.taken g.type ++ takenTypes gs :=
      List.flatMap_cons
    have hpos := text_length_pos g
    rw [htext, List.length_append] at hn
    obtain ⟨n, rfl⟩ : ∃ m, n = m + 1 := ⟨n - 1, by omega⟩
    obtain ⟨p', hturn⟩ := @generateLoop_group n i p list g (text gs)
    rw [htext, hturn, ih (by omega), htypes, produced_append, List.length_replicate, List.append_assoc]

theorem generateLoop_ret {s : List Byte} (hn : s.length ≤ n) :
    (∃ gs, s = text gs) ∨ (generateLoop n ⟨p, s⟩ i list).2 = -1 := by
  induction n generalizing s i p list with
  | zero => exact .inl ⟨[], List.length_eq_zero_iff.mp (Nat.le_zero.mp hn)⟩
  | succ n ih =>
    by_cases hne : s = []
    · exact .inl ⟨[], hne⟩
    by_cases hgroup : ∃ (g : Group) (rest : List Byte), s = g.text ++ rest
    · obtain ⟨g, rest, rfl⟩ := hgroup
      have hpos := text_length_pos g
      rw [List.length_append] at hn
      obtain ⟨p', hturn⟩ := @generateLoop_group n i p list g rest
      rw [hturn]
      refine (ih (by omega)).imp ?_ id
      rintro ⟨gs, rfl⟩
      exact ⟨g :: gs, List.flatMap_cons.symm⟩
    · right
      rw [generateLoop_reject hne fun g rest h => hgroup ⟨g, rest, h⟩]

end

/-! ## Numbers that fit -/

section
variable {g : Group} {gs : List Group}

theorem Group.Strict.ulongValue (h : g.Strict) : ulongValue (g.sign ++ g.digits) =
    if 2 ^ 64 ≤ number g.digits then BitVec.allOnes 64 else BitVec.ofNat 64 (number g.digits) := by
  have hpositive : negative g.digits = false := by
    unfold negative
    rw [List.contains_eq_mem, decide_eq_false_iff_not]
    intro hmem
    exact absurd (g.digits_ok _ hmem) (by decide)
  rw [h.2, List.nil_append]
  unfold Strto.ulongValue
  rw [hpositive]
  rfl

theorem Group.Strict.taken_eq (h : g.Strict) (hlt : g.count < 2 ^ 31) : g.taken = g.count := by
  unfold count at hlt
  unfold taken count
  split
  · rfl
  · rename_i hne
    rw [if_neg hne] at hlt
    rw [h.ulongValue, if_neg (by omega), BitVec.toNat_ofNat, Nat.mod_eq_of_lt (by omega), toInt_of_lt hlt]
    rfl

theorem Group.taken_lt (hge : 2 ^ 31 ≤ g.count) : g.taken < g.count := by
  unfold taken
  split
  · omega
  · have := toInt_lt (Strto.ulongValue (g.sign ++ g.digits)).toNat
    omega

theorem Group.Strict.taken_le (h : g.Strict) : g.taken ≤ g.count := by
  obtain hlt | hge := Nat.lt_or_ge g.count (2 ^ 31)
  · exact Nat.le_of_eq (h.taken_eq hlt)
  · exact Nat.le_of_lt (taken_lt hge)

theorem takenTypes_length (hstrict : ∀ g ∈ gs, g.Strict) :
    (takenTypes gs).length ≤ (types gs).length ∧
      ((takenTypes gs).length = (types gs).length → ∀ g ∈ gs, g.taken = g.count) := by
  induction gs with
  | nil => exact ⟨Nat.le_refl 0, by simp⟩
  | cons g gs ih =>
    rw [List.forall_mem_cons] at hstrict
    obtain ⟨hle, hall⟩ := ih hstrict.2
    have hfirst := hstrict.1.taken_le
    have htaken : (takenTypes (g :: gs)).length = g.taken + (takenTypes gs).length := by
      simp [takenTypes]
    have hcount : (types (g :: gs)).length = g.count + (types gs).length := by simp [types]
    rw [List.forall_mem_cons]
    refine ⟨by omega, fun heq => ⟨by omega, hall (by omega)⟩⟩

theorem takenTypes_eq (hall : ∀ g ∈ gs, g.taken = g.count) : takenTypes gs = types gs := by
  unfold takenTypes types
  refine List.flatMap_congr fun g hg => ?_
  rw [hall g hg]

end

theorem signalName_eq_iff (i : Nat) (hi : i ≤ 2 ^ 31) : signalName i = ascii "signal" ++ decimal i ↔ i < 2 ^ 31 := by
  unfold signalName
  rw [List.append_cancel_left_eq]
  obtain hlt | heq := Nat.lt_or_eq_of_le hi
  · refine iff_of_true ?_ hlt
    rw [toInt_of_lt hlt]
    unfold decimalPadded
    rw [if_neg (by omega)]
    simp [List.leftpad]
  · refine iff_of_false (fun h => ?_) (by omega)
    have hneg := toInt_neg (Nat.le_of_eq heq.symm) (by omega)
    have hminus : ch '-' ∈ decimal i := by
      rw [← h, decimalPadded, if_pos hneg]
      exact List.mem_append_left _ (List.mem_singleton_self _)
    exact absurd ((numeral_decimal i).digits _ hminus) (by decide)

theorem produced_eq_iff (ts : List SignalType) : produced 0 ts = named ts ↔ ts.length ≤ 2 ^ 31 := by
  constructor
  · intro h
    by_contra hlong
    have hlt : 2 ^ 31 < ts.length := by omega
    have hname := congrArg (fun l => l[2 ^ 31]?) h
    simp only [produced, named, List.getElem?_map, List.getElem?_zipIdx,
      List.getElem?_eq_getElem hlt, Option.map_some, Nat.zero_add, Option.some.injEq, Prod.mk.injEq,
      and_true] at hname
    exact absurd ((signalName_eq_iff _ (Nat.le_refl _)).mp hname) (Nat.lt_irrefl _)
  · intro hle
    unfold produced named
    apply List.map_congr_left
    rintro ⟨type, i⟩ hmem
    have hi : i < ts.length := by
      have := (List.mem_zipIdx hmem).2.1
      omega
    dsimp only
    rw [(signalName_eq_iff i (by omega)).mpr (by omega)]

/-! ## All strings -/

theorem signalListGenerate2_text (gs : List Group) :
    signalListGenerate2 (text gs) = (produced 0 (takenTypes gs), 0) :=
  (generateLoop_text (Nat.le_refl _)).trans (congrArg (·, 0) (List.nil_append _))

theorem accepts_iff {gs : List Group} (hstrict : ∀ g ∈ gs, g.Strict) :
    signalListGenerate2 (text gs) = (named (types gs), 0) ↔
      (∀ g ∈ gs, g.count < 2 ^ 31) ∧ (types gs).length ≤ 2 ^ 31 := by
  rw [signalListGenerate2_text, Prod.mk.injEq, and_iff_left rfl]
  obtain ⟨-, hall⟩ := takenTypes_length hstrict
  constructor
  · intro h
    have hlength := congrArg List.length h
    simp only [produced, named, List.length_map, List.length_zipIdx] at hlength
    have hsame := hall hlength
    rw [takenTypes_eq hsame] at h
    refine ⟨fun g hg => ?_, (produced_eq_iff _).mp h⟩
    by_contra hge
    have := g.taken_lt (Nat.not_lt.mp hge)
    have := hsame g hg
    omega
  · rintro ⟨hcounts, hlength⟩
    rw [takenTypes_eq fun g hg => (hstrict g hg).taken_eq (hcounts g hg)]
    exact (produced_eq_iff _).mpr hlength

/-- For every string: the strings of the grammar, and only these, are accepted and make the signals
that they say, if and only if all numbers are small and plain. -/
theorem exact_iff (dt : List Byte) : Exact dt ↔ Plain dt := by
  constructor
  · intro h
    refine ⟨?_, ?_⟩
    · rintro gs ⟨hstrict, rfl⟩
      exact (accepts_iff hstrict).mp (h.accepts gs ⟨hstrict, rfl⟩)
    · rintro ⟨gs, rfl⟩
      by_contra hnone
      have hret := h.rejects hnone
      rw [signalListGenerate2_text] at hret
      cases hret
  · intro h
    refine ⟨?_, fun hnone => ?_⟩
    · rintro gs ⟨hstrict, rfl⟩
      exact (accepts_iff hstrict).mpr (h.counts gs ⟨hstrict, rfl⟩)
    · obtain hgs | hret := @generateLoop_ret dt.length 0 0 [] dt (Nat.le_refl _)
      · exact absurd (h.strict hgs) hnone
      · exact hret

/-- `-3f` is accepted without a signal, `4294967297f` makes one signal, and a space is accepted in
front of a number. -/
theorem loose_numbers :
    signalListGenerate2 (ascii "-3f") = ([], 0) ∧
      signalListGenerate2 (ascii "4294967297f") = ([(ascii "signal0", .float)], 0) ∧
      signalListGenerate2 (ascii " 1b") = ([(ascii "signal0", .boolean)], 0) ∧
      ¬ ∀ dt, Exact dt := by
  refine ⟨by decide, by decide, by decide, fun h => ?_⟩
  let g : Group := ⟨[], [], ascii "4294967297", .float, by simp, .inl rfl, List.all_eq_true.mp rfl,
    fun _ => ⟨rfl, rfl⟩, by decide⟩
  have hstrict : ∀ g' ∈ [g], g'.Strict := by
    intro g' hg'
    rw [List.mem_singleton.mp hg']
    exact ⟨rfl, rfl⟩
  have haccepts := (h (text [g])).accepts [g] ⟨hstrict, rfl⟩
  have hcount := ((accepts_iff hstrict).mp haccepts).1 g (List.mem_singleton_self g)
  exact absurd hcount (by decide)

end VillasNode.SignalString
