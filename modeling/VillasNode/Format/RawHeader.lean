import Mathlib.Order.Monotone.Basic
import VillasNode.Format.RawBounds

/-!
# The header of the raw format

With the fake header, `sscan` reads what `sprint` has written as the same sequence
number, time and values, except for words of 8 bits, which have a sign.
-/

namespace VillasNode.RawFormat

open ByteOrder ByteMemory MachineInt

/-! ## What fits -/

/-- How many of these numbers of words are written behind `o` words. -/
def fitting (width limit o : Nat) : List Nat → Nat
  | [] => 0
  | n :: ns => if (o + n) * width < limit then fitting width limit (o + n) ns + 1 else 0

theorem fitting_le (width limit o : Nat) (ns : List Nat) : fitting width limit o ns ≤ ns.length := by
  induction ns generalizing o with
  | nil => exact Nat.le_refl 0
  | cons n ns ih =>
    unfold fitting
    split
    · exact Nat.succ_le_succ (ih _)
    · exact Nat.zero_le _

theorem le_fitting_iff {width limit o k : Nat} {ns : List Nat} (hk : k ≤ ns.length)
    (ho : o * width < limit) :
    k ≤ fitting width limit o ns ↔ (o + (ns.take k).sum) * width < limit := by
  induction ns generalizing o k with
  | nil =>
    obtain rfl : k = 0 := Nat.le_zero.mp hk
    exact iff_of_true (Nat.zero_le _) ho
  | cons n ns ih =>
    cases k with
    | zero => exact iff_of_true (Nat.zero_le _) ho
    | succ k =>
      unfold fitting
      rw [List.take_succ_cons, List.sum_cons, ← Nat.add_assoc]
      split
      · rename_i hfits
        rw [Nat.succ_le_succ_iff]
        exact ih (Nat.le_of_succ_le_succ hk) hfits
      · rename_i hfull
        have hmul : (o + n) * width ≤ (o + n + (ns.take k).sum) * width :=
          Nat.mul_le_mul_right _ (Nat.le_add_right _ _)
        exact iff_of_false (Nat.not_succ_le_zero k) (by omega)

variable (f : RawFormat)

/-! ## The specification -/

/-- The format without the header. -/
def plainFormat : RawFormat := { f with fake := false }

/-- `sscan` of what `sprint` has written of a sample. -/
def resend (buf : List Byte) (smp : Payload) (rx : Receiver) : Option Found :=
  (f.sprint buf [smp]).wbytes.bind fun wbytes => f.sscan ((f.sprint buf [smp]).out.mem.bytes.take wbytes) rx 1

/-- The sequence number and the time are the same, and the values are the ones that there are without
the header. -/
def HeaderTrips (buf : List Byte) (smp : Payload) (rx : Receiver) : Prop :=
  ∃ found plain, f.resend buf smp rx = some found ∧ f.plainFormat.resend buf smp rx = some plain ∧
    found.smp.sequence = smp.sequence ∧ found.smp.origin = smp.origin ∧
    found.smp.length = plain.smp.length ∧ found.smp.data = plain.smp.data

/-- The numbers of the header are unsigned numbers of this width. -/
structure Representable (smp : Payload) : Prop where
  sequence : smp.sequence.toNat < 2 ^ f.bits
  sec : smp.origin.sec.toNat < 2 ^ f.bits
  nsec : smp.origin.nsec.toNat < 2 ^ f.bits

/-- The numbers of words for the values. -/
def valueSlots (smp : Payload) : List Nat :=
  (List.range' 0 smp.length).map fun j => slots (f.sampleFormat smp j)

/-! ## The words of a sample -/

/-- The words for the value at index `j`. -/
def words (smp : Payload) (j : Nat) : List (BitVec f.bits) :=
  (f.valueWords (f.sampleFormat smp j) (smp.data j)).getD []

/-- The words for the first `k` values. -/
def valuesWords (smp : Payload) (k : Nat) : List (BitVec f.bits) := (List.range' 0 k).flatMap (f.words smp)

/-- The words in front of the values. -/
def frontWords (smp : Payload) : List (BitVec f.bits) := if f.fake then f.headerWords smp else []

/-- The number of values that are written into a buffer with this limit. -/
def writtenValues (limit : Nat) (smp : Payload) : Nat :=
  fitting f.width limit (f.start 0) (f.valueSlots smp)

/-- The value that is read of the words for the value at index `j`, into a place with some data. -/
def readBack (smp : Payload) (j : Nat) (old : Value) : Value :=
  ((f.scanValue (f.sampleFormat smp j) old ⟨⟨storeAll .little f.bits (f.words smp j), []⟩, 0⟩).map
    Prod.snd).getD old

section
variable {f}

/-! ## Printing -/

theorem printChunks_fitting (hsupported : f.Supported) {len : Nat} (hlen : len < 2 ^ 63)
    {cs : List f.Chunk} (hcs : ∀ c ∈ cs, c.Ok) (hsome : ∀ c ∈ cs, c.words.isSome) {out : Output}
    {xs : List (BitVec f.bits)} (h : f.Writing len out xs) (hout : out.o * f.width < 2 ^ 31) :
    ∃ out', (f.printChunks len cs out = .done out' ∨ f.printChunks len cs out = .full out') ∧
      f.Writing len out'
        (xs ++ chunkWords (cs.take (fitting f.width (min len (2 ^ 31)) out.o (cs.map Chunk.slots)))) ∧
      out'.o * f.width < 2 ^ 31 := by
  induction cs generalizing out xs with
  | nil =>
    refine ⟨out, .inl rfl, ?_, hout⟩
    rw [List.take_nil]
    simpa [chunkWords] using h
  | cons c cs ih =>
    rw [List.forall_mem_cons] at hcs hsome
    obtain ⟨⟨hpos, hle, hwords⟩, hcs⟩ := hcs
    obtain ⟨ys, hys⟩ := Option.isSome_iff_exists.mp hsome.1
    have hcount := hwords ys hys
    rw [if_pos hsupported] at hcount
    have hroom := noRoom_iff hlen hout hle
    unfold printChunks
    rw [List.map_cons, fitting]
    by_cases hfull : f.noRoom len out c.slots
    · have hnot := hroom.mp hfull
      rw [if_pos hfull, if_neg (by omega)]
      refine ⟨out, .inr rfl, ?_, hout⟩
      simpa [chunkWords] using h
    · have hfits := not_not.mp (mt hroom.mpr hfull)
      have hcomm := Nat.mul_comm f.width (out.o + ys.length)
      rw [← hcount] at hfits
      have hput := h.put ys (by omega)
      have ho : (f.put out ys).o = out.o + c.slots := by
        rw [hput.count, List.length_append, h.count, hcount]
      obtain ⟨out', houtcome, hwriting, hsmall⟩ := ih hcs hsome.2 hput (by rw [ho, ← hcount]; exact hfits.2)
      rw [if_neg hfull, hys]
      refine ⟨out', houtcome, ?_, hsmall⟩
      rw [if_pos (by rw [← hcount]; omega), List.take_succ_cons]
      rw [ho] at hwriting
      simpa [chunkWords, hys] using hwriting

theorem start_zero : f.start 0 = if f.fake then 3 else 0 := rfl

theorem chunkWords_values (smp : Payload) {k : Nat} (hk : k ≤ smp.length) :
    chunkWords (((List.range' 0 smp.length).map (f.valueChunk smp)).take k) = f.valuesWords smp k := by
  unfold chunkWords valuesWords
  rw [← List.map_take, List.take_range'_of_length_ge hk, List.flatMap_map]
  rfl

theorem valueChunk_slots (smp : Payload) :
    ((List.range' 0 smp.length).map (f.valueChunk smp)).map Chunk.slots = f.valueSlots smp := by
  rw [List.map_map]
  rfl

theorem writtenValues_le (limit : Nat) (smp : Payload) : f.writtenValues limit smp ≤ smp.length := by
  have hle := fitting_le f.width limit (f.start 0) (f.valueSlots smp)
  rw [valueSlots, List.length_map, List.length_range'] at hle
  exact hle

theorem chunkWords_fitting {limit : Nat} {smp : Payload} (hfront : f.start 0 * f.width < limit) :
    chunkWords ((f.sampleChunks smp).take (fitting f.width limit 0 ((f.sampleChunks smp).map Chunk.slots))) =
      f.frontWords smp ++ f.valuesWords smp (f.writtenValues limit smp) := by
  have hvalues := @chunkWords_values f smp _ (@writtenValues_le f limit smp)
  rw [start_zero] at hfront
  unfold sampleChunks frontWords
  rw [← hvalues]
  unfold writtenValues
  rw [start_zero, ← valueChunk_slots]
  by_cases hfake : f.fake
  · rw [if_pos hfake] at hfront
    simp only [if_pos hfake]
    rw [List.singleton_append, List.map_cons, fitting, Nat.zero_add, if_pos hfront, List.take_succ_cons]
    rfl
  · simp only [if_neg hfake]
    rfl

theorem resend_fitting (hsupported : f.Supported) {buf : List Byte} (hlen : buf.length < 2 ^ 63)
    {smp : Payload} (hvalid : f.ValidSignals [smp]) (rx : Receiver) :
    f.resend buf smp rx = f.sscan (storeAll .little f.bits (chunkWords ((f.sampleChunks smp).take
      (fitting f.width (min buf.length (2 ^ 31)) 0 ((f.sampleChunks smp).map Chunk.slots))))) rx 1 := by
  have hsome := (validSignals_iff [smp]).mp hvalid
  rw [List.flatMap_singleton] at hsome
  have hsmall : (0 : Nat) * f.width < 2 ^ 31 := by
    rw [Nat.zero_mul]
    decide
  obtain ⟨out, houtcome, hwriting, hout⟩ := printChunks_fitting hsupported hlen (sampleChunks_ok smp) hsome
    (writing_start buf) hsmall
  rw [List.nil_append] at hwriting
  have hsprint : (f.sprint buf [smp]).wbytes = some (toSize (out.o * f.width)) ∧
      (f.sprint buf [smp]).out = out := by
    unfold sprint
    rw [printSamples_chunks, List.flatMap_singleton]
    rcases houtcome with houtcome | houtcome
    · rw [houtcome]
      exact ⟨rfl, rfl⟩
    · rw [houtcome]
      exact ⟨rfl, rfl⟩
  unfold resend
  rw [hsprint.1, hsprint.2, Option.bind_some, hwriting.written hout]

theorem resend_full (hsupported : f.Supported) {buf : List Byte} (hlen : buf.length < 2 ^ 63)
    {smp : Payload} (hvalid : f.ValidSignals [smp]) (hfake : f.fake)
    (hfront : ¬ 3 * f.width < min buf.length (2 ^ 31)) (rx : Receiver) : f.resend buf smp rx = none := by
  rw [resend_fitting hsupported hlen hvalid]
  unfold sampleChunks
  rw [if_pos hfake, List.singleton_append, List.map_cons, fitting, Nat.zero_add, if_neg hfront, List.take_zero]
  have hnone : (storeAll .little f.bits (chunkWords ([] : List f.Chunk))).length = 0 := rfl
  have hshort : toInt (0 / f.width) < 3 := by
    rw [Nat.zero_div]
    decide
  rw [sscan_entry, hnone, if_neg (by decide), if_neg (by rw [Nat.zero_mod]; decide),
    if_pos ⟨hfake, hshort⟩]

/-! ## Reading -/

theorem scanValue_congr {t : SignalType} (ht : t ≠ .invalid) (old : Value) {inp inp' : Output}
    (hfirst : (f.getWord inp).2 = (f.getWord inp').2)
    (hsecond : t = .complex → (f.getWord (f.getWord inp).1).2 = (f.getWord (f.getWord inp').1).2) :
    (f.scanValue t old inp).map Prod.snd = (f.scanValue t old inp').map Prod.snd := by
  cases t with
  | invalid => exact absurd rfl ht
  | float =>
    unfold scanValue
    dsimp only
    rw [hfirst]
    split_ifs <;> rfl
  | integer =>
    unfold scanValue
    dsimp only
    rw [hfirst]
    split_ifs <;> rfl
  | boolean =>
    unfold scanValue
    dsimp only
    rw [hfirst]
    split_ifs <;> rfl
  | complex =>
    have hcomplex (single : BitVec f.bits → BitVec 32) :
        (f.scanComplex inp single).2 = (f.scanComplex inp' single).2 := by
      unfold scanComplex
      dsimp only
      rw [hfirst, hsecond rfl]
      split <;> rfl
    unfold scanValue
    dsimp only
    split_ifs
    · rfl
    · exact congrArg some (hcomplex _)
    · exact congrArg some (hcomplex _)
    · rfl

theorem words_length (hsupported : f.Supported) {smp : Payload} {j : Nat}
    (hvalid : f.sampleFormat smp j ≠ .invalid) :
    f.valueWords (f.sampleFormat smp j) (smp.data j) = some (f.words smp j) ∧
      (f.words smp j).length = slots (f.sampleFormat smp j) := by
  have hsome : (f.valueWords (f.sampleFormat smp j) (smp.data j)) ≠ none := mt (valueWords_none_iff ..).mp hvalid
  obtain ⟨xs, hxs⟩ := Option.ne_none_iff_exists'.mp hsome
  have hlength := (valueChunk_ok smp j).length xs hxs
  rw [if_pos hsupported] at hlength
  unfold words
  rw [hxs]
  exact ⟨rfl, hlength⟩

theorem scanValue_middle (hsupported : f.Supported) {smp : Payload} {j : Nat}
    (hvalid : f.sampleFormat smp j ≠ .invalid) {pre post : List (BitVec f.bits)} {inp : Output}
    (hmem : inp.mem.bytes = storeAll .little f.bits (pre ++ (f.words smp j ++ post)))
    (ho : inp.o = pre.length) (old : Value) :
    ∃ inp', f.scanValue (f.sampleFormat smp j) old inp = some (inp', f.readBack smp j old) ∧
      f.Reads inp inp' (f.sampleFormat smp j) := by
  obtain ⟨-, hlength⟩ := words_length hsupported hvalid
  obtain ⟨inp', v, hscan⟩ := scanValue_valid hvalid old inp
  have hget {k : Nat} (hk : k < slots (f.sampleFormat smp j)) :
      (pre ++ (f.words smp j ++ post)).getD (pre.length + k) 0 = (f.words smp j).getD k 0 := by
    rw [List.getD_eq_getElem?_getD, List.getElem?_append_right (Nat.le_add_right ..),
      Nat.add_sub_cancel_left, List.getElem?_append_left (by omega), ← List.getD_eq_getElem?_getD]
  have hlen : (pre ++ (f.words smp j ++ post)).length = pre.length + (slots (f.sampleFormat smp j) + post.length) := by
    rw [List.length_append, List.length_append, hlength]
  have hpos : 0 < slots (f.sampleFormat smp j) := (valueChunk_ok smp j).pos
  -- The same words alone in a buffer.
  let alone : Output := ⟨⟨storeAll .little f.bits (f.words smp j), []⟩, 0⟩
  have hfirst : (f.getWord inp).2 = (f.getWord alone).2 := by
    rw [getWord_word hmem (by omega), @getWord_word f _ alone rfl (by rw [hlength]; exact hpos), ho]
    exact congrArg f.xtoh (hget hpos)
  have hsecond : f.sampleFormat smp j = .complex →
      (f.getWord (f.getWord inp).1).2 = (f.getWord (f.getWord alone).1).2 := by
    intro ht
    have htwo : slots (f.sampleFormat smp j) = 2 := if_pos ht
    have hmem' : (f.getWord inp).1.mem.bytes = _ := hmem
    have halone : (f.getWord alone).1.o < (f.words smp j).length := by
      rw [hlength, htwo]
      exact Nat.one_lt_two
    rw [getWord_word hmem' (by rw [getWord_o]; omega), @getWord_word f _ (f.getWord alone).1 rfl halone,
      getWord_o, ho]
    exact congrArg f.xtoh (hget (by omega))
  have hvalue := scanValue_congr hvalid old hfirst hsecond
  rw [hscan, Option.map_some] at hvalue
  refine ⟨inp', ?_, scanValue_reads hsupported hscan⟩
  unfold readBack
  rw [← hvalue]
  exact hscan

theorem slots_pos (t : SignalType) : 0 < slots t := by
  unfold slots
  split <;> decide

theorem start_strictMono : StrictMono f.start :=
  strictMono_nat_of_lt_succ fun _ => Nat.lt_add_of_pos_right (slots_pos _)

theorem sampleFormat_format {smp : Payload} (hsignals : smp.signals = f.signals) (j : Nat) :
    f.sampleFormat smp j = f.format j := by
  unfold sampleFormat format
  rw [hsignals]

theorem valuesWords_succ (smp : Payload) (k : Nat) :
    f.valuesWords smp (k + 1) = f.valuesWords smp k ++ f.words smp k := by
  unfold valuesWords
  rw [List.range'_1_concat, List.flatMap_append, Nat.zero_add, List.flatMap_singleton]

theorem valuesWords_split (smp : Payload) {i k : Nat} (hik : i < k) :
    ∃ post, f.valuesWords smp k = f.valuesWords smp i ++ (f.words smp i ++ post) := by
  induction k with
  | zero => exact absurd hik (Nat.not_lt_zero i)
  | succ k ih =>
    rw [valuesWords_succ]
    rcases Nat.eq_or_lt_of_le (Nat.le_of_lt_succ hik) with rfl | hlt
    · exact ⟨[], by rw [List.append_nil]⟩
    · obtain ⟨post, hpost⟩ := ih hlt
      exact ⟨post ++ f.words smp k, by rw [hpost]; simp only [List.append_assoc]⟩

theorem front_length (hsupported : f.Supported) {smp : Payload} (hsignals : smp.signals = f.signals)
    {i : Nat} (hvalid : ∀ j < i, f.sampleFormat smp j ≠ .invalid) :
    (f.frontWords smp ++ f.valuesWords smp i).length = f.start i := by
  induction i with
  | zero =>
    change (f.frontWords smp ++ []).length = _
    rw [List.append_nil, start_zero]
    unfold frontWords headerWords
    split
    · rw [List.length_append, List.length_append, intWords_length, intWords_length, intWords_length,
        if_pos hsupported]
    · rfl
  | succ i ih =>
    obtain ⟨-, hwords⟩ := words_length hsupported (hvalid i (Nat.lt_succ_self i))
    rw [valuesWords_succ, ← List.append_assoc, List.length_append, hwords,
      ih fun j hj => hvalid j (Nat.lt_succ_of_lt hj), sampleFormat_format hsignals]
    rfl

/-- The values from index `i` up to index `m` are read back, and the rest is as it was. -/
structure Restored (f : RawFormat) (sent smp smp' : Payload) (i m : Nat) : Prop where
  sequence : smp'.sequence = smp.sequence
  origin : smp'.origin = smp.origin
  data : ∀ j, smp'.data j = if i ≤ j ∧ j < m then f.readBack sent j (smp.data j) else smp.data j

theorem restored_here (sent smp : Payload) (i : Nat) : Restored f sent smp smp i i :=
  ⟨rfl, rfl, fun j => by rw [if_neg (by omega)]⟩

theorem Restored.cons {sent smp smp' : Payload} {i m : Nat} (him : i < m)
    (h : Restored f sent (smp.setData i (f.readBack sent i (smp.data i))) smp' (i + 1) m) :
    Restored f sent smp smp' i m := by
  refine ⟨h.sequence, h.origin, fun j => ?_⟩
  rw [h.data, setData_data]
  by_cases hij : j = i
  · subst hij
    rw [if_neg (by omega), if_pos rfl, if_pos ⟨Nat.le_refl j, him⟩]
  · rw [if_neg hij]
    by_cases hin : i ≤ j ∧ j < m
    · rw [if_pos (by omega), if_pos hin]
    · rw [if_neg (by omega), if_neg hin]

theorem scanValues_sent (hsupported : f.Supported) {sent : Payload} (hsent : sent.signals = f.signals)
    {k : Nat} (hvalid : ∀ j < k, f.sampleFormat sent j ≠ .invalid) {n i : Nat} (hi : i ≤ k) {inp : Output}
    (hmem : inp.mem.bytes = storeAll .little f.bits (f.frontWords sent ++ f.valuesWords sent k))
    (ho : inp.o = f.start i) {smp : Payload} (hsmp : smp.signals = f.signals) :
    ∃ inp' smp', f.scanValues (f.start k) n i inp smp = some (inp', smp', min k (i + n)) ∧
      Restored f sent smp smp' i (min k (i + n)) := by
  induction n generalizing i inp smp with
  | zero =>
    rw [Nat.add_zero, Nat.min_eq_right hi]
    exact ⟨inp, smp, rfl, restored_here sent smp i⟩
  | succ n ih =>
    unfold scanValues
    rcases Nat.eq_or_lt_of_le hi with rfl | hlt
    · rw [if_pos (by omega), Nat.min_eq_left (Nat.le_add_right ..)]
      exact ⟨inp, smp, rfl, restored_here sent smp i⟩
    · have hstart := start_strictMono (f := f) hlt
      obtain ⟨post, hpost⟩ := valuesWords_split (f := f) sent hlt
      have hfront : (f.frontWords sent ++ f.valuesWords sent i).length = f.start i :=
        front_length hsupported hsent fun j hj => hvalid j (by omega)
      rw [hpost, ← List.append_assoc] at hmem
      obtain ⟨inp', hscan, hreads⟩ := scanValue_middle hsupported (hvalid i hlt) hmem (ho.trans hfront.symm)
        (smp.data i)
      have hformat : f.sampleFormat smp i = f.sampleFormat sent i := by
        rw [sampleFormat_format hsmp, sampleFormat_format hsent]
      rw [if_neg (by omega), hformat, hscan]
      have hmem' : inp'.mem.bytes = storeAll .little f.bits (f.frontWords sent ++ f.valuesWords sent k) := by
        rw [hreads.bytes, hmem, hpost, List.append_assoc]
      have ho' : inp'.o = f.start (i + 1) := by
        rw [hreads.o, ho, sampleFormat_format hsent]
        rfl
      obtain ⟨inp'', smp', hrest, hrestored⟩ := @ih (i + 1) hlt inp' hmem' ho'
        (smp.setData i (f.readBack sent i (smp.data i))) hsmp
      rw [Nat.add_right_comm] at hrest hrestored
      exact ⟨inp'', smp', hrest, hrestored.cons (by omega)⟩

/-! ## The header -/

theorem entry_data (buf : List Byte) (rx : Receiver) : (f.entry buf rx).2.data = rx.payload.data := by
  unfold entry scanHeader
  split
  · split <;> rfl
  · rfl

theorem unsignedWord_iff {v : BitVec 64} (hv : v.toNat < 2 ^ f.bits) :
    f.unsignedWord (v.setWidth f.bits) = v ↔ (f.bits = 8 → v.toNat < 128) := by
  unfold unsignedWord
  by_cases hbyte : f.bits = 8
  · rw [if_pos hbyte, imp_iff_right hbyte]
    generalize f.bits = w at hbyte hv ⊢
    subst hbyte
    rw [← BitVec.toInt_inj, BitVec.toInt_signExtend_of_le (by decide), BitVec.toInt_eq_toNat_cond,
      BitVec.toInt_eq_toNat_cond, BitVec.toNat_setWidth]
    omega
  · rw [if_neg hbyte]
    refine iff_of_true ?_ fun h => absurd h hbyte
    apply BitVec.eq_of_toNat_eq
    have hlt := v.isLt
    rw [BitVec.toNat_setWidth, BitVec.toNat_setWidth, Nat.mod_eq_of_lt hv, Nat.mod_eq_of_lt hlt]

theorem entry_header (hsupported : f.Supported) (hfake : f.fake) (smp : Payload) (ws : List (BitVec f.bits))
    (rx : Receiver) :
    (f.entry (storeAll .little f.bits (f.frontWords smp ++ ws)) rx).2.sequence =
        f.unsignedWord (smp.sequence.setWidth f.bits) ∧
      (f.entry (storeAll .little f.bits (f.frontWords smp ++ ws)) rx).2.origin =
        ⟨f.unsignedWord (smp.origin.sec.setWidth f.bits), f.unsignedWord (smp.origin.nsec.setWidth f.bits)⟩ := by
  have hfront : f.frontWords smp = [f.htox (smp.sequence.setWidth f.bits),
      f.htox (smp.origin.sec.setWidth f.bits), f.htox (smp.origin.nsec.setWidth f.bits)] := by
    unfold frontWords headerWords intWords
    simp only [if_pos hfake, if_pos hsupported]
    rfl
  rw [hfront]
  generalize hbuf : storeAll .little f.bits (_ ++ ws) = buf
  let first : Output := ⟨⟨buf, []⟩, 0⟩
  let second := (f.getWord first).1
  let third := (f.getWord second).1
  have hsequence : (f.getWord first).2 = smp.sequence.setWidth f.bits := by
    rw [@getWord_word f _ first hbuf.symm (Nat.succ_pos _)]
    exact xtoh_htox _
  have hsec : (f.getWord second).2 = smp.origin.sec.setWidth f.bits := by
    rw [@getWord_word f _ second hbuf.symm (Nat.succ_lt_succ (Nat.succ_pos _))]
    exact xtoh_htox _
  have hnsec : (f.getWord third).2 = smp.origin.nsec.setWidth f.bits := by
    rw [@getWord_word f _ third hbuf.symm (Nat.succ_lt_succ (Nat.succ_lt_succ (Nat.succ_pos _)))]
    exact xtoh_htox _
  rw [← hsequence, ← hsec, ← hnsec]
  unfold entry scanHeader
  simp only [if_pos hfake, if_pos hsupported]
  exact ⟨rfl, rfl⟩

/-! ## What is read -/

theorem sscan_sent (hsupported : f.Supported) {smp : Payload} (hsignals : smp.signals = f.signals) {k : Nat}
    (hvalid : ∀ j < k, f.sampleFormat smp j ≠ .invalid) (hsmall : f.start k * f.width < 2 ^ 31) (rx : Receiver)
    {buf : List Byte} (hbuf : buf = storeAll .little f.bits (f.frontWords smp ++ f.valuesWords smp k)) :
    ∃ found, f.sscan buf rx 1 = some found ∧ found.smp.length = min k rx.capacity ∧
      Restored f smp (f.entry buf rx).2 found.smp 0 (min k rx.capacity) := by
  have hlength := front_length hsupported hsignals hvalid
  obtain ⟨hmod, hdiv, hcount⟩ := @storeAll_words f (f.frontWords smp ++ f.valuesWords smp k) (by rwa [hlength])
  rw [← hbuf] at hmod hdiv
  have hnlen : toInt (buf.length / f.width) = f.start k := by
    rw [hdiv, hcount, hlength]
  have hfake (hf : f.fake) : 3 ≤ toInt (buf.length / f.width) := by
    have hle := start_strictMono (f := f).monotone (Nat.zero_le k)
    rw [start_zero, if_pos hf] at hle
    omega
  obtain ⟨ho, hbytes, -, hsmp⟩ := entry_safe hsupported hfake rx
  obtain ⟨inp, smp', hscan, hrestored⟩ := @scanValues_sent f hsupported smp hsignals k hvalid rx.capacity 0
    (Nat.zero_le k) (f.entry buf rx).1 (hbytes.trans hbuf) ho (f.entry buf rx).2 hsmp
  rw [Nat.zero_add] at hscan hrestored
  refine ⟨⟨{ smp' with length := min (min k rx.capacity) rx.capacity }, 1, some (toSize (inp.o * f.width))⟩,
    ?_, ?_, ?_⟩
  · rw [sscan_entry, if_neg (by decide), if_neg (not_not.mpr hmod),
      if_neg (by rintro ⟨hf, hlt⟩; have := hfake hf; omega), hnlen, hscan]
  · exact Nat.min_eq_left (Nat.min_le_right ..)
  · exact ⟨hrestored.sequence, hrestored.origin, hrestored.data⟩

/-! ## How many values -/

theorem start_sum {smp : Payload} (hsignals : smp.signals = f.signals) {k : Nat} (hk : k ≤ smp.length) :
    f.start k = f.start 0 + ((f.valueSlots smp).take k).sum := by
  unfold valueSlots
  rw [← List.map_take, List.take_range'_of_length_ge hk]
  clear hk
  induction k with
  | zero => rfl
  | succ k ih =>
    rw [List.range'_1_concat, List.map_append, List.sum_append, Nat.zero_add, List.map_singleton,
      List.sum_singleton, sampleFormat_format hsignals, ← Nat.add_assoc, ← ih]
    rfl

theorem le_writtenValues_iff {limit : Nat} {smp : Payload} (hsignals : smp.signals = f.signals) {k : Nat}
    (hk : k ≤ smp.length) (hfront : f.start 0 * f.width < limit) :
    k ≤ f.writtenValues limit smp ↔ f.start k * f.width < limit := by
  have hlength : (f.valueSlots smp).length = smp.length := by
    unfold valueSlots
    rw [List.length_map, List.length_range']
  rw [start_sum hsignals hk]
  exact le_fitting_iff (by omega) hfront

theorem min_writtenValues_iff (hfake : f.fake) {limit capacity : Nat} {smp : Payload}
    (hsignals : smp.signals = f.signals) (hfront : 3 * f.width < limit) :
    min (f.writtenValues limit smp) capacity = min (f.plainFormat.writtenValues limit smp) capacity ↔
      f.start (min smp.length capacity) * f.width < limit := by
  have hzero : f.start 0 = 3 := if_pos hfake
  have hplain (k : Nat) : f.start k = 3 + f.plainFormat.start k := by
    induction k with
    | zero => exact hzero
    | succ k ih =>
      change f.start k + slots (f.format k) = 3 + (f.plainFormat.start k + slots (f.format k))
      omega
  have hwith {k : Nat} (hk : k ≤ smp.length) : k ≤ f.writtenValues limit smp ↔ f.start k * f.width < limit :=
    le_writtenValues_iff hsignals hk (by rwa [hzero])
  have hwithout {k : Nat} (hk : k ≤ smp.length) :
      k ≤ f.plainFormat.writtenValues limit smp ↔ f.plainFormat.start k * f.width < limit := by
    refine le_writtenValues_iff (f := f.plainFormat) hsignals hk ?_
    change 0 * f.width < limit
    omega
  have hle := @writtenValues_le f limit smp
  have hle' := @writtenValues_le f.plainFormat limit smp
  rw [← hwith (Nat.min_le_left ..)]
  constructor
  · intro hmin
    by_contra hless
    -- One more value would have been written without the header.
    have hself := (hwith hle).mp (Nat.le_refl _)
    have hstep : f.plainFormat.start (f.writtenValues limit smp + 1) ≤ f.start (f.writtenValues limit smp) := by
      have hslots : slots (f.plainFormat.format (f.writtenValues limit smp)) ≤ 2 := by
        unfold slots
        split <;> decide
      rw [hplain, start]
      omega
    have hmul := Nat.mul_le_mul_right f.width hstep
    have hmore := (hwithout (k := f.writtenValues limit smp + 1) (by omega)).mpr (by omega)
    omega
  · intro hall
    have hmul : f.plainFormat.start (min smp.length capacity) * f.width ≤
        f.start (min smp.length capacity) * f.width := Nat.mul_le_mul_right _ (by rw [hplain]; omega)
    have hself := (hwith (Nat.min_le_left ..)).mp hall
    have hall' := (hwithout (Nat.min_le_left ..)).mpr (Nat.lt_of_le_of_lt hmul hself)
    omega

theorem resend_sent (hsupported : f.Supported) {buf : List Byte} (hlen : buf.length < 2 ^ 63) {smp : Payload}
    (hsignals : smp.signals = f.signals) (hvalid : f.ValidSignals [smp])
    (hfront : f.start 0 * f.width < min buf.length (2 ^ 31)) (rx : Receiver) :
    ∃ found ws, f.resend buf smp rx = some found ∧
      found.smp.length = min (f.writtenValues (min buf.length (2 ^ 31)) smp) rx.capacity ∧
      Restored f smp (f.entry (storeAll .little f.bits (f.frontWords smp ++ ws)) rx).2 found.smp 0
        (min (f.writtenValues (min buf.length (2 ^ 31)) smp) rx.capacity) := by
  have hle := @writtenValues_le f (min buf.length (2 ^ 31)) smp
  have hsmall := (le_writtenValues_iff hsignals hle hfront).mp (Nat.le_refl _)
  have htypes : ∀ j < f.writtenValues (min buf.length (2 ^ 31)) smp, f.sampleFormat smp j ≠ .invalid :=
    fun j hj => hvalid smp (List.mem_singleton_self smp) j (by omega)
  obtain ⟨found, hscan, hfound⟩ := sscan_sent hsupported hsignals htypes (by omega) rx rfl
  refine ⟨found, _, ?_, hfound⟩
  rw [resend_fitting hsupported hlen hvalid, chunkWords_fitting hfront]
  exact hscan

end

/-- For every sample with representable numbers: it comes back with the header exactly when no number of
the header looks negative as a word of 8 bits, and all values that there is a place for fit behind it. -/
theorem headerTrips_iff (hsupported : f.Supported) (hfake : f.fake) {buf : List Byte} (hlen : buf.length < 2 ^ 63)
    {smp : Payload} (hsignals : smp.signals = f.signals) (hvalid : f.ValidSignals [smp])
    (h : f.Representable smp) (rx : Receiver) :
    f.HeaderTrips buf smp rx ↔
      (f.bits = 8 → smp.sequence.toNat < 128 ∧ smp.origin.sec.toNat < 128 ∧ smp.origin.nsec.toNat < 128) ∧
        f.start (min smp.length rx.capacity) * f.width < min buf.length (2 ^ 31) := by
  have hzero : f.start 0 = 3 := if_pos hfake
  by_cases hfront : 3 * f.width < min buf.length (2 ^ 31)
  · obtain ⟨found, ws, hresend, hlength, hrestored⟩ :=
      resend_sent hsupported hlen hsignals hvalid (by rwa [hzero]) rx
    obtain ⟨plain, ws', hresend', hlength', hrestored'⟩ :=
      resend_sent (f := f.plainFormat) hsupported hlen hsignals hvalid (by
        change 0 * f.width < _
        omega) rx
    obtain ⟨hsequence, horigin⟩ := entry_header hsupported hfake smp ws rx
    have hheader : found.smp.sequence = smp.sequence ∧ found.smp.origin = smp.origin ↔
        (f.bits = 8 → smp.sequence.toNat < 128 ∧ smp.origin.sec.toNat < 128 ∧ smp.origin.nsec.toNat < 128) := by
      have htime := Iff.of_eq (Timespec.mk.injEq (f.unsignedWord (smp.origin.sec.setWidth f.bits))
        (f.unsignedWord (smp.origin.nsec.setWidth f.bits)) smp.origin.sec smp.origin.nsec)
      rw [unsignedWord_iff h.sec, unsignedWord_iff h.nsec] at htime
      rw [hrestored.sequence, hrestored.origin, hsequence, horigin, unsignedWord_iff h.sequence]
      refine Iff.trans (and_congr_right fun _ => htime) ?_
      exact ⟨fun ⟨h1, h2, h3⟩ hb => ⟨h1 hb, h2 hb, h3 hb⟩,
        fun hall => ⟨fun hb => (hall hb).1, fun hb => (hall hb).2.1, fun hb => (hall hb).2.2⟩⟩
    rw [← hheader, ← min_writtenValues_iff hfake hsignals hfront]
    constructor
    · rintro ⟨found', plain', hfound, hplain, hsequence, horigin, hsame, -⟩
      cases hresend.symm.trans hfound
      cases hresend'.symm.trans hplain
      rw [hlength, hlength'] at hsame
      exact ⟨⟨hsequence, horigin⟩, hsame⟩
    · rintro ⟨⟨hsequence, horigin⟩, hsame⟩
      refine ⟨found, plain, hresend, hresend', hsequence, horigin, ?_, ?_⟩
      · rw [hlength, hlength', hsame]
      · funext j
        rw [hrestored.data, hrestored'.data, hsame, entry_data, entry_data]
        rfl
  · rw [HeaderTrips, resend_full hsupported hlen hvalid hfake hfront]
    refine iff_of_false ?_ ?_
    · rintro ⟨found, -, hfound, -⟩
      cases hfound
    · rintro ⟨-, hfits⟩
      have hle := start_strictMono (f := f).monotone (Nat.zero_le (min smp.length rx.capacity))
      have hmul := Nat.mul_le_mul_right f.width hle
      rw [hzero] at hmul
      omega

/-- A format with the header. -/
def headerExample : RawFormat := { rawExample 8 (by decide) with fake := true }

def headerSample (sequence : BitVec 64) : Payload := { rawSample 7 with sequence, origin := ⟨100, 50⟩ }

theorem headerTrips_small : headerExample.HeaderTrips [0, 0, 0, 0, 0] (headerSample 127) ⟨1, rawSample 0⟩ := by
  refine (headerTrips_iff _ (by decide) rfl (by decide) rfl ?_ ⟨?_, ?_, ?_⟩ _).mpr ⟨fun _ => ?_, ?_⟩
  · intro smp hsmp j hj
    obtain rfl := List.mem_singleton.mp hsmp
    obtain rfl : j = 0 := Nat.lt_one_iff.mp hj
    decide
  all_goals decide

/-- The sequence number 200 comes back as a negative one. -/
theorem sequence_negative : headerExample.Representable (headerSample 200) ∧
    ¬ headerExample.HeaderTrips [0, 0, 0, 0, 0] (headerSample 200) ⟨1, rawSample 0⟩ := by
  refine ⟨⟨by decide, by decide, by decide⟩, ?_⟩
  rintro ⟨found, -, hfound, -, hsequence, -⟩
  have hresend : (headerExample.resend [0, 0, 0, 0, 0] (headerSample 200) ⟨1, rawSample 0⟩).map
      (fun r => r.smp.sequence) = some 0xffffffffffffffc8 := by decide
  rw [hfound, Option.map_some, hsequence] at hresend
  exact absurd hresend (by decide)

end VillasNode.RawFormat
