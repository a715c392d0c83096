import VillasNode.Format.Line
import VillasNode.Format.RawAccounting

/-!
# Round trip of the raw format

What `sprint` writes of a sample with integers and booleans, `sscan` reads back,
as long as the length of the words in bytes is an `int`.
-/

namespace VillasNode.RawFormat

open ByteOrder ByteMemory MachineInt Line

variable (f : RawFormat)

/-- The sample has a signal for each value, integers in the range of the width with a sign, or
booleans. -/
structure Encodable (smp : Payload) : Prop where
  signals : smp.signals = f.signals
  values : ∀ j < smp.length,
    f.sampleFormat smp j = .boolean ∨
      f.sampleFormat smp j = .integer ∧ -2 ^ (f.bits - 1) ≤ (smp.data j).toInt ∧
        (smp.data j).toInt < 2 ^ (f.bits - 1)

/-- `sscan` reads from the bytes that were written the sample that was written. -/
def RoundTrips (buf : List Byte) (smp : Payload) (rx : Receiver) : Prop :=
  ∃ wbytes found, (f.sprint buf [smp]).wbytes = some wbytes ∧
    f.sscan ((f.sprint buf [smp]).out.mem.bytes.take wbytes) rx 1 = some found ∧
    found.ret = 1 ∧ found.rbytes = some wbytes ∧ found.smp.length = smp.length ∧
    ∀ j < smp.length, SameValue (f.sampleFormat smp j) (smp.data j) (found.smp.data j)

section
variable {f}

/-! ## One word -/

theorem dvd_bits : 8 ∣ f.bits := Nat.dvd_of_mod_eq_zero f.bits_ok.1

theorem xtoh_htox (x : BitVec f.bits) : f.xtoh (f.htox x) = x := by
  unfold xtoh htox
  rw [store_load dvd_bits (store_length ..), load_store dvd_bits]

theorem signExtend_setWidth {w : Nat} (hw : w = 8 ∨ w = 16 ∨ w = 32 ∨ w = 64) {v : BitVec 64}
    (hlo : -2 ^ (w - 1) ≤ v.toInt) (hhi : v.toInt < 2 ^ (w - 1)) :
    (v.setWidth w).signExtend 64 = v := by
  apply BitVec.eq_of_toInt_eq
  have hv := v.isLt
  rcases hw with rfl | rfl | rfl | rfl
  all_goals
    rw [BitVec.toInt_signExtend_of_le (by omega)]
    rw [BitVec.toInt_eq_toNat_cond] at hlo hhi ⊢
    rw [BitVec.toInt_eq_toNat_cond, BitVec.toNat_setWidth]
    omega

/-- The word for a value of a known type. -/
def encoded (t : SignalType) (data : Value) : BitVec f.bits :=
  if t = .boolean then (if data.extractLsb' 0 8 ≠ 0 then 1 else 0 : BitVec 64).setWidth f.bits
  else data.setWidth f.bits

/-- The value for a word, into a place with some data. -/
def decoded (t : SignalType) (data : Value) (x : BitVec f.bits) : Value :=
  if t = .boolean then data.extractLsb' 8 56 ++ (if x ≠ 0 then 1#8 else 0#8) else x.signExtend 64

theorem bool_word {w : Nat} (hw : 0 < w) (b : BitVec 8) :
    (if b ≠ 0 then 1 else 0 : BitVec 64).setWidth w ≠ 0 ↔ b ≠ 0 := by
  by_cases hb : b = 0
  · simp [hb]
  · rw [if_pos hb]
    refine iff_of_true (fun h => ?_) hb
    have hone := congrArg BitVec.toNat h
    have hpow : 2 ≤ 2 ^ w := Nat.le_self_pow (by omega) 2
    rw [BitVec.toNat_setWidth] at hone
    simp at hone
    omega

theorem sameValue_decoded (hsupported : f.Supported) {t : SignalType} {data : Value}
    (h : t = .boolean ∨ t = .integer ∧ -2 ^ (f.bits - 1) ≤ data.toInt ∧
      data.toInt < 2 ^ (f.bits - 1)) (old : Value) :
    SameValue t data (f.decoded t old (f.encoded t data)) := by
  rcases h with rfl | ⟨rfl, hlo, hhi⟩
  · unfold decoded encoded
    rw [if_pos rfl, if_pos rfl]
    dsimp only [SameValue]
    rw [BitVec.extractLsb'_append_eq_right]
    have hword := bool_word f.bits_ok.2.2 (data.extractLsb' 0 8)
    by_cases hb : data.extractLsb' 0 8 = 0
    · rw [if_neg (mt hword.mp (not_not.mpr hb))]
      exact iff_of_true hb rfl
    · rw [if_pos (hword.mpr hb)]
      exact iff_of_false hb (by decide)
  · exact (signExtend_setWidth hsupported hlo hhi).symm

/-! ## All words -/

theorem valueWords_encoded (hsupported : f.Supported) {t : SignalType}
    (h : t = .boolean ∨ t = .integer) (data : Value) :
    f.valueWords t data = some [f.htox (f.encoded t data)] := by
  rcases h with rfl | rfl
  · exact congrArg some (if_pos hsupported)
  · exact congrArg some (if_pos hsupported)

theorem scanValue_decoded (hsupported : f.Supported) {t : SignalType}
    (h : t = .boolean ∨ t = .integer) (data : Value) (inp : Output) :
    f.scanValue t data inp = some ((f.getWord inp).1, f.decoded t data (f.getWord inp).2) := by
  rcases h with rfl | rfl
  · exact if_pos hsupported
  · exact if_pos hsupported

theorem getWord_word {ws : List (BitVec f.bits)} {inp : Output}
    (hmem : inp.mem.bytes = storeAll .little f.bits ws) (ho : inp.o < ws.length) :
    (f.getWord inp).2 = f.xtoh (ws.getD inp.o 0) := by
  have hload := load_storeAll dvd_bits hmem ho
  rw [List.getD_eq_getElem?_getD, List.getElem?_eq_getElem ho, Option.getD_some, ← hload]
  rfl

theorem scanValues_words (hsupported : f.Supported) {ws : List (BitVec f.bits)} {n i : Nat}
    {inp : Output} {smp : Payload} (hmem : inp.mem.bytes = storeAll .little f.bits ws)
    (ho : inp.o = i) (hi : i ≤ ws.length) (hn : ws.length ≤ i + n)
    (htypes : ∀ j < ws.length, f.sampleFormat smp j = .boolean ∨ f.sampleFormat smp j = .integer) :
    ∃ inp' smp', f.scanValues ws.length n i inp smp = some (inp', smp', ws.length) ∧
      inp'.o = ws.length ∧ ∀ j, smp'.data j = if i ≤ j ∧ j < ws.length then
        f.decoded (f.sampleFormat smp j) (smp.data j) (f.xtoh (ws.getD j 0)) else smp.data j := by
  induction n generalizing i inp smp with
  | zero =>
    obtain rfl : i = ws.length := by omega
    refine ⟨inp, smp, rfl, ho, fun j => ?_⟩
    rw [if_neg (by omega)]
  | succ n ih =>
    unfold scanValues
    obtain hlt | rfl := Nat.lt_or_eq_of_le hi
    · have hword : (f.getWord inp).2 = f.xtoh (ws.getD i 0) := by
        rw [getWord_word hmem (by omega), ho]
      rw [if_neg (by omega), scanValue_decoded hsupported (htypes i hlt), hword]
      generalize hv : f.decoded (f.sampleFormat smp i) (smp.data i) (f.xtoh (ws.getD i 0)) = v
      have hmem' : (f.getWord inp).1.mem.bytes = storeAll .little f.bits ws := hmem
      have ho' : (f.getWord inp).1.o = i + 1 := congrArg (· + 1) ho
      have htypes' : ∀ j < ws.length, f.sampleFormat (smp.setData i v) j = .boolean ∨
          f.sampleFormat (smp.setData i v) j = .integer := htypes
      obtain ⟨inp', smp', hscan, hend, hdata⟩ := ih hmem' ho' (by omega) (by omega) htypes'
      refine ⟨inp', smp', hscan, hend, fun j => ?_⟩
      rw [hdata, setData_data]
      by_cases hij : j = i
      · subst hij
        rw [if_neg (by omega), if_pos rfl, if_pos (by omega), hv]
      · by_cases hin : i ≤ j ∧ j < ws.length
        · rw [if_pos (by omega), if_pos hin, if_neg hij]
          rfl
        · rw [if_neg (by omega), if_neg hij, if_neg hin]
    · rw [if_pos (by omega)]
      refine ⟨inp, smp, rfl, ho, fun j => ?_⟩
      rw [if_neg (by omega)]

/-! ## One sample -/

theorem Encodable.types {smp : Payload} (h : f.Encodable smp) :
    ∀ j < smp.length, f.sampleFormat smp j = .boolean ∨ f.sampleFormat smp j = .integer :=
  fun j hj => (h.values j hj).imp_right And.left

theorem Encodable.valid {smp : Payload} (h : f.Encodable smp) : f.ValidSignals [smp] := by
  intro smp' hsmp j hj
  obtain rfl := List.mem_singleton.mp hsmp
  rcases h.types j hj with ht | ht
  · rw [ht]
    decide
  · rw [ht]
    decide

/-- What is written of a sample without the header. -/
def sampleWords (smp : Payload) : List (BitVec f.bits) :=
  (List.range' 0 smp.length).map fun j => f.htox (f.encoded (f.sampleFormat smp j) (smp.data j))

theorem sampleChunks_encoded (hfake : f.fake = false) {smp : Payload} :
    f.sampleChunks smp = (List.range' 0 smp.length).map (f.valueChunk smp) := by
  unfold sampleChunks
  rw [hfake]
  rfl

theorem chunkWords_encoded (hsupported : f.Supported) (hfake : f.fake = false) {smp : Payload}
    (h : f.Encodable smp) : chunkWords (f.sampleChunks smp) = f.sampleWords smp := by
  rw [sampleChunks_encoded hfake]
  unfold chunkWords sampleWords
  rw [List.flatMap_map, List.map_eq_flatMap]
  refine List.flatMap_congr fun j hj => ?_
  have hlt : j < smp.length := by
    rw [List.mem_range'_1] at hj
    omega
  change (f.valueWords (f.sampleFormat smp j) (smp.data j)).getD [] = _
  rw [valueWords_encoded hsupported (h.types j hlt)]
  rfl

theorem chunkSlots_encoded (hfake : f.fake = false) {smp : Payload} (h : f.Encodable smp) :
    chunkSlots (f.sampleChunks smp) = smp.length := by
  rw [sampleChunks_encoded hfake]
  have hone : ∀ c ∈ (List.range' 0 smp.length).map (f.valueChunk smp), c.slots = 1 := by
    intro c hc
    obtain ⟨j, hj, rfl⟩ := List.mem_map.mp hc
    rw [List.mem_range'_1, Nat.zero_add] at hj
    apply if_neg
    rcases h.types j hj.2 with ht | ht
    · rw [ht]
      decide
    · rw [ht]
      decide
  unfold chunkSlots
  rw [List.map_congr_left hone, List.map_const', List.length_map, List.length_range']
  simp

/-- The sample before its values are read. -/
def plain (rx : Receiver) : Payload :=
  { rx.payload with flags := 0, sequence := 0, origin := ⟨0, 0⟩, signals := f.signals }

theorem sscan_plain (hfake : f.fake = false) {buf : List Byte} (hmod : buf.length % f.width = 0)
    {rx : Receiver} {inp : Output} {smp : Payload} {i : Nat}
    (h : f.scanValues (toInt (buf.length / f.width)) rx.capacity 0 ⟨⟨buf, []⟩, 0⟩ (f.plain rx) =
      some (inp, smp, i)) :
    f.sscan buf rx 1 =
      some ⟨{ smp with length := min i rx.capacity }, 1, some (toSize (inp.o * f.width))⟩ := by
  have hnofake : ¬ (f.fake ∧ toInt (buf.length / f.width) < 3) := by simp [hfake]
  unfold sscan
  dsimp only
  rw [if_neg (by decide), if_neg (not_not.mpr hmod), if_neg hnofake]
  simp only [hfake, Bool.false_eq_true, if_false]
  unfold plain at h
  rw [h]

theorem storeAll_words {ws : List (BitVec f.bits)} (hsmall : ws.length * f.width < 2 ^ 31) :
    (storeAll .little f.bits ws).length % f.width = 0 ∧
      (storeAll .little f.bits ws).length / f.width = ws.length ∧ toInt ws.length = ws.length := by
  have hbytes : (storeAll .little f.bits ws).length = f.width * ws.length := storeAll_length ..
  rw [hbytes]
  refine ⟨Nat.mul_mod_right .., Nat.mul_div_cancel_left _ width_pos, toInt_of_lt ?_⟩
  have hle := Nat.le_mul_of_pos_right ws.length f.width_pos
  omega

theorem sscan_words (hsupported : f.Supported) (hfake : f.fake = false) {smp : Payload}
    (h : f.Encodable smp) {ws : List (BitVec f.bits)} (hle : ws.length ≤ smp.length)
    (hsmall : ws.length * f.width < 2 ^ 31) {rx : Receiver} (hcap : smp.length ≤ rx.capacity) :
    ∃ found, f.sscan (storeAll .little f.bits ws) rx 1 = some found ∧ found.ret = 1 ∧
      found.rbytes = some (ws.length * f.width) ∧ found.smp.length = ws.length ∧
      ∀ j < ws.length, found.smp.data j =
        f.decoded (f.sampleFormat smp j) (rx.payload.data j) (f.xtoh (ws.getD j 0)) := by
  obtain ⟨hmod, hdiv, hcount⟩ := storeAll_words hsmall
  have hformat (j : Nat) : f.sampleFormat (f.plain rx) j = f.sampleFormat smp j := by
    unfold sampleFormat
    rw [h.signals]
    rfl
  have htypes : ∀ j < ws.length, f.sampleFormat (f.plain rx) j = .boolean ∨
      f.sampleFormat (f.plain rx) j = .integer := by
    intro j hj
    rw [hformat]
    exact h.types j (by omega)
  have hcapacity : ws.length ≤ 0 + rx.capacity := by omega
  have hstart : (⟨⟨storeAll .little f.bits ws, []⟩, 0⟩ : Output).mem.bytes = storeAll .little f.bits ws :=
    rfl
  obtain ⟨inp, smp', hscan, ho, hdata⟩ :=
    scanValues_words hsupported hstart rfl (Nat.zero_le _) hcapacity htypes
  rw [← hcount, ← hdiv] at hscan
  have hsscan := sscan_plain hfake hmod hscan
  refine ⟨_, hsscan, rfl, ?_, ?_, fun j hj => ?_⟩
  · rw [ho, toSize_of_lt hsmall]
  · rw [hdiv]
    exact Nat.min_eq_left (by omega)
  · change smp'.data j = _
    rw [hdata, if_pos ⟨Nat.zero_le j, hj⟩, hformat]
    rfl

theorem sampleWords_length (smp : Payload) : (f.sampleWords smp).length = smp.length := by
  unfold sampleWords
  rw [List.length_map, List.length_range']

theorem sampleWords_getD {smp : Payload} {j : Nat} (hj : j < smp.length) :
    (f.sampleWords smp).getD j 0 = f.htox (f.encoded (f.sampleFormat smp j) (smp.data j)) := by
  have hlt : j < (f.sampleWords smp).length := by
    rw [sampleWords_length]
    exact hj
  rw [List.getD_eq_getElem?_getD, List.getElem?_eq_getElem hlt, Option.getD_some]
  simp [sampleWords]

theorem Writing.written {len : Nat} {out : Output} {ws : List (BitVec f.bits)}
    (h : f.Writing len out ws) (hsmall : out.o * f.width < 2 ^ 31) :
    out.mem.bytes.take (toSize (out.o * f.width)) = storeAll .little f.bits ws := by
  rw [toSize_of_lt hsmall, Nat.mul_comm]
  exact h.bytes

theorem sprint_encoded (hsupported : f.Supported) (hfake : f.fake = false) {buf : List Byte}
    {smp : Payload} (h : f.Encodable smp) (hroom : smp.length * f.width < buf.length)
    (hlen : buf.length < 2 ^ 63) :
    ∃ out ws, f.sprint buf [smp] = ⟨out, toInt 1, some (toSize (out.o * f.width))⟩ ∧
      f.Writing buf.length out ws ∧ out.o * f.width < 2 ^ 31 ∧
      (ws = f.sampleWords smp ∨ out.o < smp.length ∧ 2 ^ 31 ≤ smp.length * f.width) := by
  have hends := f.sprint_ends buf [smp] hlen
  have hsome := (validSignals_iff [smp]).mp h.valid
  have hslots := chunkSlots_encoded hfake h
  rw [List.flatMap_singleton] at hends hsome
  have hpasses : Passes buf.length 0 (f.sampleChunks smp) ↔ _ :=
    passes_iff (sampleChunks_ok smp) hsome hsupported 0
  rw [hslots, Nat.zero_add] at hpasses
  cases houtcome : f.printSamples buf.length [smp] ⟨⟨buf, []⟩, 0⟩ with
  | done out =>
    obtain ⟨hpassed, -, hwriting⟩ := hends.done out houtcome
    rw [List.nil_append, chunkWords_encoded hsupported hfake h] at hwriting
    refine ⟨out, _, ?_, hwriting, ?_, .inl rfl⟩
    · unfold sprint
      rw [houtcome]
      rfl
    · rw [hwriting.count, sampleWords_length]
      rcases hpasses.mp hpassed with hnil | ⟨-, hsmall⟩
      · rw [hnil] at hslots
        have hzero : smp.length = 0 := hslots.symm
        rw [hzero, Nat.zero_mul]
        decide
      · exact hsmall
  | full out =>
    obtain ⟨hfull, hlt, hsmall, ws, hwriting⟩ := hends.full out houtcome
    rw [hslots, Nat.zero_add] at hlt
    refine ⟨out, ws, ?_, hwriting, hsmall, .inr ⟨hlt, ?_⟩⟩
    · unfold sprint
      rw [houtcome]
      rfl
    · apply Nat.le_of_not_lt
      intro hfits
      exact hfull (hpasses.mpr (.inr ⟨hroom, hfits⟩))
  | invalid out =>
    obtain ⟨-, ⟨c, hc, hnone⟩, -⟩ := hends.invalid out houtcome
    have hvalid := hsome c hc
    rw [hnone] at hvalid
    cases hvalid

theorem sscan_written (hsupported : f.Supported) (hfake : f.fake = false) {buf : List Byte}
    {smp : Payload} (h : f.Encodable smp) {out : Output} {ws : List (BitVec f.bits)}
    (hsprint : f.sprint buf [smp] = ⟨out, toInt 1, some (toSize (out.o * f.width))⟩)
    (hwriting : f.Writing buf.length out ws) (hsmall : out.o * f.width < 2 ^ 31)
    (hle : ws.length ≤ smp.length) {rx : Receiver} (hcap : smp.length ≤ rx.capacity) :
    f.RoundTrips buf smp rx ↔ ws.length = smp.length ∧
      ∀ j < smp.length, SameValue (f.sampleFormat smp j) (smp.data j)
        (f.decoded (f.sampleFormat smp j) (rx.payload.data j) (f.xtoh (ws.getD j 0))) := by
  have hcount := hwriting.count
  have hbytes := hwriting.written hsmall
  rw [toSize_of_lt hsmall] at hsprint hbytes
  rw [hcount] at hsprint hbytes hsmall
  obtain ⟨found, hscan, hret, hrbytes, hlength, hdata⟩ :=
    sscan_words hsupported hfake h hle hsmall hcap
  unfold RoundTrips
  rw [hsprint]
  dsimp only
  constructor
  · rintro ⟨wbytes, found', hwbytes, hscan', -, -, hlength', hsame⟩
    cases hwbytes
    rw [hbytes, hscan] at hscan'
    cases hscan'
    have hall : ws.length = smp.length := hlength.symm.trans hlength'
    refine ⟨hall, fun j hj => ?_⟩
    rw [← hdata j (by omega)]
    exact hsame j hj
  · rintro ⟨hall, hsame⟩
    refine ⟨_, found, rfl, ?_, hret, hrbytes, hlength.trans hall, fun j hj => ?_⟩
    · rw [hbytes]
      exact hscan
    · rw [hdata j (by omega)]
      exact hsame j hj

theorem not_roundTrips (hsupported : f.Supported) (hfake : f.fake = false) {buf : List Byte}
    {smp : Payload} {rx : Receiver} (h : f.Encodable smp) (hcap : smp.length ≤ rx.capacity)
    (hroom : smp.length * f.width < buf.length) (hlen : buf.length < 2 ^ 63)
    (hbig : 2 ^ 31 ≤ smp.length * f.width) : ¬ f.RoundTrips buf smp rx := by
  obtain ⟨out, ws, hsprint, hwriting, hsmall, hall⟩ :=
    sprint_encoded hsupported hfake h hroom hlen
  have hcount := hwriting.count
  rcases hall with rfl | ⟨hlt, -⟩
  · rw [sampleWords_length] at hcount
    rw [hcount] at hsmall
    omega
  · rw [sscan_written hsupported hfake h hsprint hwriting hsmall (by omega) hcap]
    rintro ⟨heq, -⟩
    omega

end

/-! ## The round trip -/

/-- For every sample with integers and booleans in a buffer that is large enough: what was written
is read back exactly if it has less than 2^31 bytes. -/
theorem roundTrips_iff (hsupported : f.Supported) (hfake : f.fake = false) {buf : List Byte}
    {smp : Payload} {rx : Receiver} (h : f.Encodable smp) (hcap : smp.length ≤ rx.capacity)
    (hroom : smp.length * f.width < buf.length) (hlen : buf.length < 2 ^ 63) :
    f.RoundTrips buf smp rx ↔ smp.length * f.width < 2 ^ 31 := by
  constructor
  · intro hround
    apply Nat.lt_of_not_le
    intro hbig
    exact not_roundTrips hsupported hfake h hcap hroom hlen hbig hround
  · intro hfits
    obtain ⟨out, ws, hsprint, hwriting, hsmall, hall⟩ :=
      sprint_encoded hsupported hfake h hroom hlen
    rcases hall with rfl | ⟨-, hbig⟩
    · have hlength : (f.sampleWords smp).length = smp.length := sampleWords_length smp
      rw [sscan_written hsupported hfake h hsprint hwriting hsmall (Nat.le_of_eq hlength) hcap]
      refine ⟨hlength, fun j hj => ?_⟩
      rw [sampleWords_getD hj, xtoh_htox]
      exact sameValue_decoded hsupported (h.values j hj) _
    · omega

theorem roundTrips_minus_one :
    (rawExample 16 (by decide)).RoundTrips [0, 0, 0] (rawSample (-1)) ⟨1, rawSample 0⟩ ↔
      (rawSample (-1)).length * (rawExample 16 (by decide)).width < 2 ^ 31 := by
  apply roundTrips_iff
  · decide
  · rfl
  · exact ⟨rfl, by decide⟩
  · decide
  · decide
  · decide

/-! ## A long sample -/

def rawZeros (n : Nat) : RawFormat :=
  { rawExample 64 (by decide) with lists := fun _ => List.replicate n .integer }

def zeroSample (n : Nat) : Payload := { rawSample 0 with length := n }

theorem zeroSample_encodable (n : Nat) : (rawZeros n).Encodable (zeroSample n) := by
  refine ⟨rfl, fun j hj => .inr ⟨?_, ?_⟩⟩
  · change (List.replicate n SignalType.integer).getD j .invalid = .integer
    have hj : j < n := hj
    rw [List.getD_eq_getElem?_getD, List.getElem?_replicate_of_lt hj]
    rfl
  · change -2 ^ 63 ≤ (0 : Value).toInt ∧ (0 : Value).toInt < 2 ^ 63
    decide

theorem zeros_cut {n : Nat} (hbig : 2 ^ 31 ≤ n * 8) (hsmall : n < 2 ^ 32) :
    n * 8 < (List.replicate (n * 8 + 1) (0 : Byte)).length ∧
      ¬ (rawZeros n).RoundTrips (List.replicate (n * 8 + 1) 0) (zeroSample n) ⟨n, rawSample 0⟩ := by
  have hroom : n * 8 < (List.replicate (n * 8 + 1) (0 : Byte)).length := by
    rw [List.length_replicate]
    omega
  have hwidth : (rawZeros n).width = 8 := by simp [width, rawZeros, rawExample]
  refine ⟨hroom, not_roundTrips ?_ rfl (zeroSample_encodable n) (Nat.le_refl n) ?_ ?_ ?_⟩
  · exact .inr (.inr (.inr rfl))
  · rw [hwidth]
    exact hroom
  · rw [List.length_replicate]
    omega
  · rw [hwidth]
    exact hbig

/-- 2^28 values of eight bytes each are not read back from a buffer that is large enough. -/
theorem long_sample_cut : (rawZeros (2 ^ 28)).Encodable (zeroSample (2 ^ 28)) ∧
    2 ^ 28 * 8 < (List.replicate (2 ^ 28 * 8 + 1) (0 : Byte)).length ∧
    ¬ (rawZeros (2 ^ 28)).RoundTrips (List.replicate (2 ^ 28 * 8 + 1) 0) (zeroSample (2 ^ 28))
      ⟨2 ^ 28, rawSample 0⟩ :=
  ⟨zeroSample_encodable _, zeros_cut (by decide) (by decide)⟩

end VillasNode.RawFormat
