import VillasNode.Format.RawRoundTrip

/-!
# Bounds of the raw format

Which bytes `sscan` reads, which values it writes, and what it says it has read,
also when it ends at an invalid signal. A complex number is two words, but the
loop asks for one.
-/

namespace VillasNode.RawFormat

open ByteOrder ByteMemory MachineInt

variable (f : RawFormat)

/-! ## Reading with all effects -/

/-- What the loop leaves: the buffer with its log, the sample, the indices of the values that are
written, and whether all signals were valid. -/
structure Visited where
  inp : Output
  smp : Payload
  written : List Nat
  valid : Bool

/-- The loop of `scanValues` with everything that it does. -/
def visitValues (nlen : Int) : Nat → Nat → Output → Payload → Visited
  | 0, _, inp, smp => ⟨inp, smp, [], true⟩
  | n + 1, i, inp, smp =>
    if nlen ≤ inp.o then ⟨inp, smp, [], true⟩
    else
      match f.scanValue (f.sampleFormat smp i) (smp.data i) inp with
      | none => ⟨inp, smp, [], false⟩
      | some (inp, v) =>
        let visited := visitValues nlen n (i + 1) inp (smp.setData i v)
        { visited with written := i :: visited.written }

/-- What `sscan` does: the accesses to the buffer, the last `o`, the indices of the values that are
written, and what it finds. -/
structure Effects where
  mem : Memory
  o : Nat
  written : List Nat
  found : Option Found

/-- The buffer and the sample in front of the values. -/
def entry (buf : List Byte) (rx : Receiver) : Output × Payload :=
  let inp : Output := ⟨⟨buf, []⟩, 0⟩
  if f.fake then
    let (inp, smp) := f.scanHeader inp rx.payload
    (inp, { smp with
      flags := SampleFlags.hasSequence ||| SampleFlags.hasTsOrigin
      signals := f.signals })
  else (inp, { rx.payload with flags := 0, sequence := 0, origin := ⟨0, 0⟩, signals := f.signals })

/-- `RawFormat::sscan` with everything that it does. -/
def sscanEffects (buf : List Byte) (rx : Receiver) (cnt : Nat) : Effects :=
  let nlen := toInt (buf.length / f.width)
  if 1 < cnt then ⟨⟨buf, []⟩, 0, [], none⟩
  else if buf.length % f.width ≠ 0 then ⟨⟨buf, []⟩, 0, [], none⟩
  else if f.fake ∧ nlen < 3 then ⟨⟨buf, []⟩, 0, [], none⟩
  else
    let (inp, smp) := f.entry buf rx
    let visited := f.visitValues nlen rx.capacity 0 inp smp
    ⟨visited.inp.mem, visited.inp.o, visited.written,
      if visited.valid then
        some ⟨{ visited.smp with length := min visited.written.length rx.capacity }, 1,
          some (toSize (visited.inp.o * f.width))⟩
      else none⟩

/-- Nothing is read behind the bytes, nothing is written behind the capacity, and not more bytes are
reported than there are. The index of the words stays an `int`; behind an overflow nothing is sure. -/
structure InBounds (buf : List Byte) (rx : Receiver) (cnt : Nat) : Prop where
  reads : ∀ a ∈ (f.sscanEffects buf rx cnt).mem.log, a.index < buf.length
  writes : ∀ i ∈ (f.sscanEffects buf rx cnt).written, i < rx.capacity
  rbytes : ∀ found n, f.sscan buf rx cnt = some found → found.rbytes = some n → n ≤ buf.length
  index : (f.sscanEffects buf rx cnt).o < 2 ^ 31

/-! ## When they are kept -/

/-- The type of the signal at index `i`. -/
def format (i : Nat) : SignalType := (f.lists f.signals).getD i .invalid

/-- The word at which the value at index `i` starts. -/
def start : Nat → Nat
  | 0 => if f.fake then 3 else 0
  | i + 1 => start i + slots (f.format i)

/-- The check of the arguments is passed. -/
def Accepts (buf : List Byte) (cnt : Nat) : Prop :=
  cnt ≤ 1 ∧ buf.length % f.width = 0 ∧ (f.fake → 3 ≤ toInt (buf.length / f.width))

/-- The values in front of index `i` are of valid signals, and start within the payload. -/
def Reaches (buf : List Byte) (i : Nat) : Prop :=
  ∀ k < i, f.format k ≠ .invalid ∧ f.start k < toInt (buf.length / f.width)

/-- No complex number starts at the last word, or at the last but one that an `int` has, and the number
of bytes that are read is an `int` as it is or wrapped to 0 or more. -/
structure Complete (buf : List Byte) (capacity : Nat) : Prop where
  complex : ∀ i < capacity, f.Reaches buf i → f.start i < toInt (buf.length / f.width) →
    f.format i = .complex → f.start i + 2 ≤ buf.length / f.width ∧ f.start i + 2 < 2 ^ 31
  int : ∀ i ≤ capacity, f.Reaches buf i → i = capacity ∨ toInt (buf.length / f.width) ≤ f.start i →
    f.start i * f.width % 2 ^ 32 < 2 ^ 31

section
variable {f}

/-! ## The effects -/

theorem scanValues_visit (nlen : Int) (n i : Nat) (inp : Output) (smp : Payload) :
    f.scanValues nlen n i inp smp =
      let visited := f.visitValues nlen n i inp smp
      if visited.valid then some (visited.inp, visited.smp, i + visited.written.length) else none := by
  induction n generalizing i inp smp with
  | zero => rfl
  | succ n ih =>
    unfold scanValues visitValues
    split
    · rfl
    · cases f.scanValue (f.sampleFormat smp i) (smp.data i) inp with
      | none => rfl
      | some r =>
        obtain ⟨inp', v⟩ := r
        dsimp only
        rw [ih]
        dsimp only
        rw [List.length_cons, Nat.add_right_comm, Nat.add_assoc i]

theorem sscan_entry (buf : List Byte) (rx : Receiver) (cnt : Nat) :
    f.sscan buf rx cnt =
      if 1 < cnt then none
      else if buf.length % f.width ≠ 0 then none
      else if f.fake ∧ toInt (buf.length / f.width) < 3 then none
      else
        match f.scanValues (toInt (buf.length / f.width)) rx.capacity 0 (f.entry buf rx).1
          (f.entry buf rx).2 with
        | none => none
        | some (inp, smp, i) =>
          some ⟨{ smp with length := min i rx.capacity }, 1, some (toSize (inp.o * f.width))⟩ := by
  unfold sscan entry
  dsimp only
  cases f.fake with
  | true => rfl
  | false => rfl

theorem found_sscanEffects (buf : List Byte) (rx : Receiver) (cnt : Nat) :
    (f.sscanEffects buf rx cnt).found = f.sscan buf rx cnt := by
  rw [sscan_entry]
  unfold sscanEffects
  dsimp only
  split
  · rfl
  split
  · rfl
  split
  · rfl
  · rw [scanValues_visit]
    dsimp only
    rw [Nat.zero_add]
    split <;> rfl

/-! ## One value -/

theorem toInt_le (n : Nat) : toInt n ≤ n := by
  unfold toInt
  rw [BitVec.toInt_eq_toNat_cond, BitVec.toNat_ofNat]
  have := Nat.mod_le n (2 ^ 32)
  split <;> omega

theorem getWord_o (inp : Output) : (f.getWord inp).1.o = inp.o + 1 := rfl

theorem getWord_bytes (inp : Output) : (f.getWord inp).1.mem.bytes = inp.mem.bytes := rfl

theorem getWord_safe_iff (inp : Output) : (f.getWord inp).1.mem.Safe ↔
    inp.mem.Safe ∧ f.width * (inp.o + 1) ≤ inp.mem.bytes.length := by
  have hmul : f.width * (inp.o + 1) = f.width * inp.o + f.width := Nat.mul_succ ..
  rw [hmul]
  exact @load_safe_iff .little f.bits (f.width * inp.o) inp.mem f.width_pos

/-- What is read for a value of a valid signal. -/
structure Reads (f : RawFormat) (inp inp' : Output) (t : SignalType) : Prop where
  o : inp'.o = inp.o + slots t
  bytes : inp'.mem.bytes = inp.mem.bytes
  safe : f.width * (inp.o + 1) ≤ inp.mem.bytes.length → (inp'.mem.Safe ↔ inp.mem.Safe ∧
    (t = .complex → 32 ≤ f.bits → f.width * (inp.o + 2) ≤ inp.mem.bytes.length))

theorem reads_getWord {t : SignalType} (ht : t ≠ .complex) (inp : Output) :
    f.Reads inp (f.getWord inp).1 t := by
  refine ⟨?_, rfl, fun hroom => ?_⟩
  · rw [slots, if_neg ht]
    rfl
  · rw [getWord_safe_iff, and_iff_left hroom, and_iff_left fun h => absurd h ht]

theorem reads_small (hsmall : f.bits < 32) (t : SignalType) (inp : Output) :
    f.Reads inp ⟨inp.mem, inp.o + slots t⟩ t := by
  refine ⟨rfl, rfl, fun _ => (and_iff_left fun _ hlarge => ?_).symm⟩
  omega

theorem reads_complex (hlarge : 32 ≤ f.bits) (inp : Output) (single : BitVec f.bits → BitVec 32) :
    f.Reads inp (f.scanComplex inp single).1 .complex := by
  have hinp : (f.scanComplex inp single).1 = (f.getWord (f.getWord inp).1).1 := by
    unfold scanComplex
    dsimp only
    split <;> rfl
  rw [hinp]
  refine ⟨rfl, rfl, fun hroom => ?_⟩
  rw [getWord_safe_iff, getWord_safe_iff, and_iff_left hroom, getWord_o, getWord_bytes]
  exact and_congr_right fun _ => ⟨fun h _ _ => h, fun h => h rfl hlarge⟩

theorem scanValue_reads (hsupported : f.Supported) {t : SignalType} {data v : Value} {inp inp' : Output}
    (h : f.scanValue t data inp = some (inp', v)) : f.Reads inp inp' t := by
  cases t with
  | invalid => cases h
  | float =>
    unfold scanValue at h
    dsimp only at h
    split at h
    · cases h
      exact reads_small (by omega) .float inp
    split at h
    · cases h
      exact reads_getWord (by decide) inp
    split at h
    · cases h
      exact reads_getWord (by decide) inp
    · unfold Supported at hsupported
      omega
  | integer =>
    unfold scanValue at h
    rw [if_pos hsupported] at h
    cases h
    exact reads_getWord (by decide) inp
  | boolean =>
    unfold scanValue at h
    dsimp only at h
    rw [if_pos hsupported] at h
    cases h
    exact reads_getWord (by decide) inp
  | complex =>
    unfold scanValue at h
    dsimp only at h
    split at h
    · cases h
      exact reads_small (by omega) .complex inp
    split at h
    · have hinp := congrArg (fun r => r.map Prod.fst) h
      cases hinp
      exact reads_complex (by omega) inp _
    split at h
    · have hinp := congrArg (fun r => r.map Prod.fst) h
      cases hinp
      exact reads_complex (by omega) inp _
    · unfold Supported at hsupported
      omega

theorem scanValue_valid {t : SignalType} (ht : t ≠ .invalid) (data : Value) (inp : Output) :
    ∃ inp' v, f.scanValue t data inp = some (inp', v) := by
  cases t with
  | invalid => exact absurd rfl ht
  | float =>
    unfold scanValue
    dsimp only
    split_ifs <;> exact ⟨_, _, rfl⟩
  | integer =>
    unfold scanValue
    dsimp only
    split_ifs <;> exact ⟨_, _, rfl⟩
  | boolean =>
    unfold scanValue
    dsimp only
    split_ifs <;> exact ⟨_, _, rfl⟩
  | complex =>
    unfold scanValue
    dsimp only
    split_ifs <;> exact ⟨_, _, rfl⟩

/-! ## The loop -/

/-- The second word of a complex number that is read is within the bytes. -/
def Fit (f : RawFormat) (len k : Nat) : Prop :=
  f.format k = .complex → 32 ≤ f.bits → f.width * (f.start k + 2) ≤ len

/-- The loop goes from index `i` to index `m`. -/
structure Visits (f : RawFormat) (nlen : Int) (capacity i : Nat) (inp : Output) (r : Visited) (m : Nat) :
    Prop where
  le : i ≤ m
  room : m ≤ capacity
  reached : ∀ k, i ≤ k → k < m → f.format k ≠ .invalid ∧ f.start k < nlen
  o : r.inp.o = f.start m
  stop : r.valid → m = capacity ∨ nlen ≤ f.start m
  stuck : r.valid = false → m < capacity ∧ f.start m < nlen ∧ f.format m = .invalid
  safe : r.inp.mem.Safe ↔ inp.mem.Safe ∧ ∀ k, i ≤ k → k < m → Fit f inp.mem.bytes.length k
  bytes : r.inp.mem.bytes = inp.mem.bytes
  written : r.written = List.range' i (m - i)

theorem visits_here {nlen : Int} {capacity i : Nat} {inp : Output} (ho : inp.o = f.start i)
    (hi : i ≤ capacity) (smp : Payload) {valid : Bool}
    (hstop : valid → i = capacity ∨ nlen ≤ f.start i)
    (hstuck : valid = false → i < capacity ∧ f.start i < nlen ∧ f.format i = .invalid) :
    Visits f nlen capacity i inp ⟨inp, smp, [], valid⟩ i := by
  refine ⟨Nat.le_refl i, hi, fun k hle hlt => by omega, ho, hstop, hstuck, ?_, rfl, ?_⟩
  · exact (and_iff_left fun k hle hlt => by omega).symm
  · rw [Nat.sub_self]
    rfl

theorem Visits.cons {nlen : Int} {capacity i m : Nat} {inp inp' : Output} {r : Visited}
    (ht : f.format i ≠ .invalid) (hlt : f.start i < nlen) (hreads : f.Reads inp inp' (f.format i))
    (ho : inp.o = f.start i) (hword : f.width * (f.start i + 1) ≤ inp.mem.bytes.length)
    (h : Visits f nlen capacity (i + 1) inp' r m) :
    Visits f nlen capacity i inp { r with written := i :: r.written } m := by
  have hle := h.le
  refine ⟨by omega, h.room, fun k hk hkm => ?_, h.o, h.stop, h.stuck, ?_, h.bytes.trans hreads.bytes, ?_⟩
  · rcases Nat.eq_or_lt_of_le hk with rfl | hk
    · exact ⟨ht, hlt⟩
    · exact h.reached k hk hkm
  · have hsafe := hreads.safe (by rwa [ho])
    rw [ho] at hsafe
    change r.inp.mem.Safe ↔ _
    rw [h.safe, hsafe, hreads.bytes, and_assoc]
    refine and_congr_right fun _ => ⟨fun ⟨hfit, hrest⟩ k hk hkm => ?_, fun hall => ⟨?_, fun k hk hkm => ?_⟩⟩
    · rcases Nat.eq_or_lt_of_le hk with rfl | hk
      · exact hfit
      · exact hrest k hk hkm
    · exact hall i (Nat.le_refl i) (by omega)
    · exact hall k (by omega) hkm
  · change i :: r.written = _
    rw [h.written, show m - i = m - (i + 1) + 1 by omega, List.range'_succ]

theorem visits_visitValues (hsupported : f.Supported) {nlen : Int} {n i capacity : Nat} (hn : i + n = capacity)
    {inp : Output} (hnlen : nlen ≤ (inp.mem.bytes.length / f.width : Nat)) (ho : inp.o = f.start i)
    {smp : Payload} (hsmp : smp.signals = f.signals) :
    ∃ m, Visits f nlen capacity i inp (f.visitValues nlen n i inp smp) m := by
  induction n generalizing i inp smp with
  | zero => exact ⟨i, visits_here ho (by omega) smp (fun _ => .inl (by omega)) nofun⟩
  | succ n ih =>
    have hformat : f.sampleFormat smp i = f.format i := by
      unfold sampleFormat format
      rw [hsmp]
    unfold visitValues
    rw [ho, hformat]
    split
    · rename_i hend
      exact ⟨i, visits_here ho (by omega) smp (fun _ => .inr hend) nofun⟩
    · rename_i hlt
      by_cases ht : f.format i = .invalid
      · rw [ht]
        exact ⟨i, visits_here ho (by omega) smp nofun fun _ => ⟨by omega, by omega, ht⟩⟩
      · obtain ⟨inp', v, hscan⟩ := scanValue_valid (f := f) ht (smp.data i) inp
        have hreads := scanValue_reads hsupported hscan
        have hword : f.width * (f.start i + 1) ≤ inp.mem.bytes.length := by
          rw [Nat.mul_comm, ← Nat.le_div_iff_mul_le f.width_pos]
          omega
        obtain ⟨m, hm⟩ := @ih (i + 1) (by omega) inp' (by rwa [hreads.bytes])
          (by rw [hreads.o, ho]; rfl) (smp.setData i v) hsmp
        rw [hscan]
        exact ⟨m, hm.cons ht (by omega) hreads ho hword⟩

/-! ## The number of bytes -/

theorem toSize_mod (n : Nat) : toSize n = toSize (n % 2 ^ 32) := by
  unfold toSize
  rw [show BitVec.ofNat 32 n = BitVec.ofNat 32 (n % 2 ^ 32) by
    apply BitVec.eq_of_toNat_eq
    rw [BitVec.toNat_ofNat, BitVec.toNat_ofNat, Nat.mod_mod]]

theorem toSize_le_iff {n len : Nat} (hlen : len < 2 ^ 63) :
    toSize n ≤ len ↔ n % 2 ^ 32 < 2 ^ 31 ∧ n % 2 ^ 32 ≤ len := by
  have hmod : n % 2 ^ 32 < 2 ^ 32 := Nat.mod_lt _ (by decide)
  rw [toSize_mod]
  obtain hlt | hge := Nat.lt_or_ge (n % 2 ^ 32) (2 ^ 31)
  · rw [toSize_of_lt hlt]
    omega
  · have := toSize_of_ge hge hmod
    omega

/-- The values that the loop visits are those in front of the first index where it ends. -/
structure EndsAt (f : RawFormat) (buf : List Byte) (capacity m : Nat) (valid : Bool) : Prop where
  room : m ≤ capacity
  reaches : f.Reaches buf m
  stop : valid → m = capacity ∨ toInt (buf.length / f.width) ≤ f.start m
  stuck : valid = false → m < capacity ∧ f.start m < toInt (buf.length / f.width) ∧ f.format m = .invalid

theorem EndsAt.le {buf : List Byte} {capacity m i : Nat} {valid : Bool}
    (h : EndsAt f buf capacity m valid) (hi : i ≤ capacity) (hreaches : f.Reaches buf i) : i ≤ m := by
  by_contra hlt
  obtain ⟨ht, hstart⟩ := hreaches m (by omega)
  cases valid with
  | true =>
    rcases h.stop rfl with hm | hm
    · omega
    · omega
  | false => exact ht (h.stuck rfl).2.2

theorem EndsAt.lt {buf : List Byte} {capacity m i : Nat} {valid : Bool}
    (h : EndsAt f buf capacity m valid) (hi : i < capacity) (hreaches : f.Reaches buf i)
    (hstart : f.start i < toInt (buf.length / f.width)) (ht : f.format i ≠ .invalid) : i < m := by
  have hle := h.le (by omega) hreaches
  rcases Nat.eq_or_lt_of_le hle with rfl | hlt
  · cases valid with
    | true =>
      rcases h.stop rfl with hm | hm
      · omega
      · omega
    | false => exact absurd (h.stuck rfl).2.2 ht
  · exact hlt

theorem start_succ_complex {i : Nat} (ht : f.format i = .complex) : f.start (i + 1) = f.start i + 2 := by
  rw [start, ht]
  rfl

theorem EndsAt.mod_le {buf : List Byte} (hmod : buf.length % f.width = 0)
    (hfake : f.fake → 3 ≤ toInt (buf.length / f.width)) {capacity m : Nat} {valid : Bool}
    (h : EndsAt f buf capacity m valid) (hcomplete : f.Complete buf capacity) :
    f.start m * f.width % 2 ^ 32 ≤ buf.length := by
  have hq := toInt_le (buf.length / f.width)
  have hlength : buf.length / f.width * f.width = buf.length :=
    Nat.div_mul_cancel (Nat.dvd_of_mod_eq_zero hmod)
  have hle := Nat.mod_le (f.start m * f.width) (2 ^ 32)
  have hwithin (hstart : f.start m ≤ buf.length / f.width) : f.start m * f.width ≤ buf.length := by
    rw [← hlength]
    exact Nat.mul_le_mul_right _ hstart
  cases m with
  | zero =>
    have hstart : f.start 0 ≤ buf.length / f.width := by
      unfold start
      split
      · rename_i hf
        have := hfake hf
        omega
      · exact Nat.zero_le _
    exact Nat.le_trans hle (hwithin hstart)
  | succ k =>
    obtain ⟨-, hstart⟩ := h.reaches k (Nat.lt_succ_self k)
    have hreaches : f.Reaches buf k := fun j hj => h.reaches j (by omega)
    by_cases ht : f.format k = .complex
    · rw [start_succ_complex ht] at hle hwithin ⊢
      exact Nat.le_trans hle (hwithin (hcomplete.complex k h.room hreaches hstart ht).1)
    · have hnext : f.start (k + 1) = f.start k + 1 := by
        rw [start, slots, if_neg ht]
      exact Nat.le_trans hle (hwithin (by omega))

theorem EndsAt.start_lt {buf : List Byte} {capacity m : Nat} {valid : Bool}
    (h : EndsAt f buf capacity m valid) (hcomplete : f.Complete buf capacity) : f.start m < 2 ^ 31 := by
  have hnlen := toInt_lt (buf.length / f.width)
  cases m with
  | zero =>
    unfold start
    split <;> omega
  | succ k =>
    obtain ⟨-, hstart⟩ := h.reaches k (Nat.lt_succ_self k)
    by_cases ht : f.format k = .complex
    · rw [start_succ_complex ht]
      exact (hcomplete.complex k h.room (fun j hj => h.reaches j (by omega)) hstart ht).2
    · rw [start, slots, if_neg ht]
      omega

theorem EndsAt.complete_iff (hsupported : f.Supported) {buf : List Byte} (hlen : buf.length < 2 ^ 63)
    (hmod : buf.length % f.width = 0) (hfake : f.fake → 3 ≤ toInt (buf.length / f.width))
    {capacity m : Nat} {valid : Bool} (h : EndsAt f buf capacity m valid) :
    ((∀ k < m, Fit f buf.length k) ∧ (valid → toSize (f.start m * f.width) ≤ buf.length) ∧
        f.start m < 2 ^ 31) ↔ f.Complete buf capacity := by
  have hq := toInt_le (buf.length / f.width)
  have hnlen := toInt_lt (buf.length / f.width)
  have hword (n : Nat) : f.width * n ≤ buf.length ↔ n ≤ buf.length / f.width := by
    rw [Nat.mul_comm, Nat.le_div_iff_mul_le f.width_pos]
  constructor
  · rintro ⟨hfit, hbytes, hindex⟩
    refine ⟨fun i hi hreaches hstart ht => ?_, fun i hi hreaches hend => ?_⟩
    · have him := h.lt hi hreaches hstart (by rw [ht]; decide)
      have hnext := start_succ_complex ht
      have hint : f.start i + 2 < 2 ^ 31 := by
        rcases Nat.eq_or_lt_of_le (show i + 1 ≤ m from him) with rfl | hlt
        · rwa [hnext] at hindex
        · have := (h.reaches (i + 1) hlt).2
          omega
      refine ⟨?_, hint⟩
      obtain hsmall | hlarge := Nat.lt_or_ge f.bits 32
      · by_contra hover
        -- The loop ends behind this value.
        obtain rfl : m = i + 1 := by
          by_contra hne
          have := (h.reaches (i + 1) (by omega)).2
          omega
        have hwidth : f.width ≤ 2 := by
          unfold Supported at hsupported
          unfold width
          omega
        have hwrap : (f.start i + 2) * f.width ≤ (f.start i + 2) * 2 := Nat.mul_le_mul_left _ hwidth
        have hvalid : valid = true := by
          by_contra hnot
          have := (h.stuck (Bool.eq_false_iff.mpr hnot)).2.1
          omega
        have hle := ((toSize_le_iff hlen).mp (hbytes hvalid)).2
        rw [hnext, Nat.mod_eq_of_lt (by omega), Nat.mul_comm, hword] at hle
        exact hover hle
      · exact (hword _).mp (hfit i him ht hlarge)
    · have hle := h.le hi hreaches
      obtain rfl : m = i := by
        by_contra hne
        have hstart := (h.reaches i (by omega)).2
        have := h.room
        rcases hend with hend | hend
        · omega
        · omega
      have hvalid : valid = true := by
        by_contra hnot
        obtain ⟨hroom, hstart, -⟩ := h.stuck (Bool.eq_false_iff.mpr hnot)
        rcases hend with hend | hend
        · omega
        · omega
      exact ((toSize_le_iff hlen).mp (hbytes hvalid)).1
  · intro hcomplete
    refine ⟨fun k hk ht hlarge => ?_, fun hvalid => ?_, h.start_lt hcomplete⟩
    · obtain ⟨-, hstart⟩ := h.reaches k hk
      have hreaches : f.Reaches buf k := fun j hj => h.reaches j (by omega)
      have hroom := h.room
      exact (hword _).mpr (hcomplete.complex k (by omega) hreaches hstart ht).1
    · exact (toSize_le_iff hlen).mpr
        ⟨hcomplete.int m h.room h.reaches (h.stop hvalid), h.mod_le hmod hfake hcomplete⟩

/-! ## The bounds -/

theorem written_lt {nlen : Int} {n i : Nat} (inp : Output) (smp : Payload) :
    ∀ j ∈ (f.visitValues nlen n i inp smp).written, j < i + n := by
  induction n generalizing i inp smp with
  | zero => simp [visitValues]
  | succ n ih =>
    unfold visitValues
    split
    · simp
    · cases f.scanValue (f.sampleFormat smp i) (smp.data i) inp with
      | none => simp
      | some r =>
        obtain ⟨inp', v⟩ := r
        intro j hj
        rcases List.mem_cons.mp hj with rfl | hj
        · omega
        · have := ih inp' (smp.setData i v) j hj
          omega

theorem scanValue_unsupported (hunsupported : ¬ f.Supported) {t : SignalType} {data v : Value}
    {inp inp' : Output} (h : f.scanValue t data inp = some (inp', v)) : inp' = inp := by
  have hsmall : ¬(f.bits = 8 ∨ f.bits = 16) := fun h => hunsupported (h.imp_right .inl)
  have hsingle : f.bits ≠ 32 := fun h => hunsupported (.inr (.inr (.inl h)))
  have hdouble : f.bits ≠ 64 := fun h => hunsupported (.inr (.inr (.inr h)))
  unfold scanValue at h
  cases t with
  | invalid => cases h
  | float =>
    dsimp only at h
    rw [if_neg hsmall, if_neg hsingle, if_neg hdouble] at h
    cases h
    rfl
  | complex =>
    dsimp only at h
    rw [if_neg hsmall, if_neg hsingle, if_neg hdouble] at h
    cases h
    rfl
  | integer =>
    dsimp only at h
    rw [if_neg hunsupported] at h
    cases h
    rfl
  | boolean =>
    dsimp only at h
    rw [if_neg hunsupported] at h
    cases h
    rfl

theorem visitValues_unsupported (hunsupported : ¬ f.Supported) {nlen : Int} {n i : Nat} (inp : Output)
    (smp : Payload) : (f.visitValues nlen n i inp smp).inp = inp := by
  induction n generalizing i smp with
  | zero => rfl
  | succ n ih =>
    unfold visitValues
    split
    · rfl
    · cases hscan : f.scanValue (f.sampleFormat smp i) (smp.data i) inp with
      | none => rfl
      | some r =>
        obtain ⟨inp', v⟩ := r
        obtain rfl := scanValue_unsupported hunsupported hscan
        exact ih (smp.setData i v)

theorem entry_safe (hsupported : f.Supported) {buf : List Byte}
    (hfake : f.fake → 3 ≤ toInt (buf.length / f.width)) (rx : Receiver) :
    (f.entry buf rx).1.o = f.start 0 ∧ (f.entry buf rx).1.mem.bytes = buf ∧
      (f.entry buf rx).1.mem.Safe ∧ (f.entry buf rx).2.signals = f.signals := by
  have hnil : (⟨⟨buf, []⟩, 0⟩ : Output).mem.Safe := nofun
  unfold entry start
  by_cases hf : f.fake
  · have hq := toInt_le (buf.length / f.width)
    have hthree : f.width * 3 ≤ buf.length := by
      rw [Nat.mul_comm, ← Nat.le_div_iff_mul_le f.width_pos]
      have := hfake hf
      omega
    have hone : f.width * 1 ≤ f.width * 3 := Nat.mul_le_mul_left _ (by decide)
    have htwo : f.width * 2 ≤ f.width * 3 := Nat.mul_le_mul_left _ (by decide)
    simp only [hf, if_true]
    unfold scanHeader
    rw [if_pos hsupported]
    refine ⟨rfl, rfl, ?_, trivial⟩
    rw [getWord_safe_iff, getWord_safe_iff, getWord_safe_iff]
    exact ⟨⟨⟨hnil, Nat.le_trans hone hthree⟩, Nat.le_trans htwo hthree⟩, hthree⟩
  · simp only [hf]
    exact ⟨rfl, rfl, hnil, rfl⟩

theorem entry_unsupported (hunsupported : ¬ f.Supported) (buf : List Byte) (rx : Receiver) :
    (f.entry buf rx).1 = ⟨⟨buf, []⟩, 0⟩ := by
  unfold entry
  by_cases hf : f.fake
  · simp only [hf, if_true]
    unfold scanHeader
    rw [if_neg hunsupported]
  · simp only [hf]
    rfl

theorem sscanEffects_accepts {buf : List Byte} {cnt : Nat} (h : f.Accepts buf cnt) (rx : Receiver) :
    f.sscanEffects buf rx cnt =
      let visited := f.visitValues (toInt (buf.length / f.width)) rx.capacity 0 (f.entry buf rx).1
        (f.entry buf rx).2
      ⟨visited.inp.mem, visited.inp.o, visited.written,
        if visited.valid then
          some ⟨{ visited.smp with length := min visited.written.length rx.capacity }, 1,
            some (toSize (visited.inp.o * f.width))⟩
        else none⟩ := by
  obtain ⟨hcnt, hmod, hfake⟩ := h
  unfold sscanEffects
  dsimp only
  rw [if_neg (by omega), if_neg (not_not.mpr hmod), if_neg (by rintro ⟨hf, hlt⟩; have := hfake hf; omega)]

theorem sscanEffects_rejects {buf : List Byte} {cnt : Nat} (h : ¬ f.Accepts buf cnt) (rx : Receiver) :
    f.sscanEffects buf rx cnt = ⟨⟨buf, []⟩, 0, [], none⟩ := by
  unfold sscanEffects
  dsimp only
  split
  · rfl
  split
  · rfl
  split
  · rfl
  · rename_i hcnt hmod hfake
    refine absurd ⟨Nat.not_lt.mp hcnt, not_not.mp hmod, fun hf => ?_⟩ h
    by_contra hlt
    exact hfake ⟨hf, by omega⟩

theorem inBounds_accepts {buf : List Byte} {cnt : Nat} (h : f.Accepts buf cnt) (rx : Receiver) :
    f.InBounds buf rx cnt ↔
      let visited := f.visitValues (toInt (buf.length / f.width)) rx.capacity 0 (f.entry buf rx).1
        (f.entry buf rx).2
      (∀ a ∈ visited.inp.mem.log, a.index < buf.length) ∧
        (visited.valid → toSize (visited.inp.o * f.width) ≤ buf.length) ∧ visited.inp.o < 2 ^ 31 := by
  have heffects := sscanEffects_accepts h rx
  have hwritten := @written_lt f (toInt (buf.length / f.width)) rx.capacity 0 (f.entry buf rx).1
    (f.entry buf rx).2
  rw [Nat.zero_add] at hwritten
  dsimp only at heffects ⊢
  constructor
  · rintro ⟨hreads, -, hbytes, hindex⟩
    rw [← found_sscanEffects] at hbytes
    rw [heffects] at hreads hbytes hindex
    refine ⟨hreads, fun hvalid => ?_, hindex⟩
    exact hbytes _ _ (if_pos hvalid) rfl
  · rintro ⟨hreads, hbytes, hindex⟩
    constructor
    · rw [heffects]
      exact hreads
    · rw [heffects]
      exact hwritten
    · rw [← found_sscanEffects, heffects]
      intro found n hfound hn
      dsimp only at hfound
      split at hfound
      · rename_i hvalid
        cases hfound
        cases hn
        exact hbytes hvalid
      · cases hfound
    · rw [heffects]
      exact hindex

end

/-- For every payload, width, byte order, header, list of signals and capacity: all bounds are kept exactly
when no complex number starts at a last word, and the number of bytes is an `int`. -/
theorem sscan_inBounds_iff {buf : List Byte} (hlen : buf.length < 2 ^ 63) (rx : Receiver) (cnt : Nat) :
    f.InBounds buf rx cnt ↔ (f.Supported → f.Accepts buf cnt → f.Complete buf rx.capacity) := by
  by_cases haccepts : f.Accepts buf cnt
  · rw [inBounds_accepts haccepts]
    dsimp only
    by_cases hsupported : f.Supported
    · obtain ⟨ho, hbytes, hsafe, hsignals⟩ := entry_safe hsupported haccepts.2.2 rx
      have hq := toInt_le (buf.length / f.width)
      obtain ⟨m, hm⟩ := @visits_visitValues f hsupported (toInt (buf.length / f.width)) rx.capacity 0
        rx.capacity (Nat.zero_add _) (f.entry buf rx).1 (by rwa [hbytes]) ho (f.entry buf rx).2 hsignals
      have hends : EndsAt f buf rx.capacity m _ :=
        ⟨hm.room, fun k hk => hm.reached k (Nat.zero_le k) hk, hm.stop, hm.stuck⟩
      have hlog : (∀ a ∈ (f.visitValues (toInt (buf.length / f.width)) rx.capacity 0 (f.entry buf rx).1
          (f.entry buf rx).2).inp.mem.log, a.index < buf.length) ↔ ∀ k < m, Fit f buf.length k := by
        have hvisited := hm.safe
        unfold Memory.Safe at hvisited
        rw [hm.bytes, hbytes] at hvisited
        rw [hvisited]
        unfold Memory.Safe at hsafe
        rw [hbytes] at hsafe
        rw [and_iff_right hsafe]
        exact ⟨fun h k hk => h k (Nat.zero_le k) hk, fun h k _ hk => h k hk⟩
      rw [hlog, hm.o, hends.complete_iff hsupported hlen haccepts.2.1 haccepts.2.2]
      exact ⟨fun h _ _ => h, fun h => h hsupported haccepts⟩
    · rw [visitValues_unsupported hsupported, entry_unsupported hsupported]
      refine iff_of_true ⟨nofun, fun _ => ?_, Nat.two_pow_pos 31⟩ fun h => absurd h hsupported
      rw [Nat.zero_mul]
      exact Nat.zero_le _
  · refine iff_of_true ?_ fun _ h => absurd h haccepts
    constructor
    · rw [sscanEffects_rejects haccepts]
      exact nofun
    · rw [sscanEffects_rejects haccepts]
      exact nofun
    · rw [← found_sscanEffects, sscanEffects_rejects haccepts]
      exact nofun
    · rw [sscanEffects_rejects haccepts]
      exact Nat.two_pow_pos 31

theorem inBounds_integer : (rawExample 32 (by decide)).InBounds [1, 2, 3, 4] ⟨1, rawSample 0⟩ 1 := by
  refine (sscan_inBounds_iff _ (by decide) _ _).mpr fun _ _ => ⟨fun i hi _ _ ht => ?_, fun i hi _ _ => ?_⟩
  · obtain rfl : i = 0 := Nat.lt_one_iff.mp hi
    cases ht
  · match i, hi with
    | 0, _ => decide
    | 1, _ => decide

/-- A format with a complex number. -/
def complexExample : RawFormat := { rawExample 32 (by decide) with lists := fun _ => [.complex] }

/-- A complex number of two words in a payload of one. -/
theorem reads_behind : ¬ complexExample.InBounds [1, 2, 3, 4] ⟨1, rawSample 0⟩ 1 := by
  intro h
  exact absurd (h.reads (.read 4) (by decide)) (by decide)

end VillasNode.RawFormat
