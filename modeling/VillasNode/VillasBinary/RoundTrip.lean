import VillasNode.VillasBinary.Framing

/-!
# Round trip of villas.binary

What `sprint` writes, `sscan` reads back, in both variants of the format and on
hosts of either byte order.
-/

namespace VillasNode

open ByteOrder

/-! ## Values -/

variable {conv : FloatConv} {sigs : List SignalType} {data : Nat → Value}

/-- The value survives as one word: an integer of 32 bits, or a `double` that is a `float`. -/
def Exact (conv : FloatConv) (t : SignalType) (v : Value) : Prop :=
  t = .integer ∧ v.toNat < 2 ^ 32 ∨ t = .float ∧ conv.widen (conv.narrow v) = v

/-- What comes back of a value, through one word. -/
def carried (conv : FloatConv) (t : SignalType) (v : Value) : Value :=
  match t with
  | .float => conv.widen (conv.narrow v)
  | .integer => (v.setWidth 32).setWidth 64
  | _ => v

theorem setWidth_setWidth {v : BitVec 64} (hv : v.toNat < 2 ^ 32) : (v.setWidth 32).setWidth 64 = v := by
  apply BitVec.eq_of_toNat_eq
  rw [BitVec.toNat_setWidth, BitVec.toNat_setWidth, Nat.mod_eq_of_lt hv, Nat.mod_eq_of_lt v.isLt]

theorem Exact.carried {t : SignalType} {v : Value} (h : Exact conv t v) : carried conv t v = v := by
  rcases h with ⟨rfl, hv⟩ | ⟨rfl, hv⟩
  · exact setWidth_setWidth hv
  · exact hv

theorem fromWord_toWord {t : SignalType} {v : Value} {w : BitVec 32}
    (hw : toWord conv t v = some w) : fromWord conv t w = some (carried conv t v) := by
  cases t <;> cases hw <;> rfl

theorem writeValues_length {i n : Nat} {ws : List (BitVec 32)}
    (hw : writeValues conv sigs data i n = some ws) : ws.length = n := by
  induction n generalizing i ws with
  | zero =>
    cases hw
    rfl
  | succ n ih =>
    unfold writeValues at hw
    split at hw
    · simp at hw
    split at hw
    · simp at hw
    obtain ⟨ws', hrest, rfl⟩ := Option.map_eq_some_iff.mp hw
    rw [List.length_cons, ih hrest]

theorem readValues_writeValues {i n : Nat} {ws : List (BitVec 32)} (smp : Payload)
    (hw : writeValues conv sigs data i n = some ws) :
    (readValues conv i ((sigs.drop i).zip ws) smp).2 = true ∧
      ∀ j, (readValues conv i ((sigs.drop i).zip ws) smp).1.data j =
        if i ≤ j ∧ j < i + n then carried conv (sigs.getD j .invalid) (data j) else smp.data j := by
  induction n generalizing i ws smp with
  | zero =>
    cases hw
    rw [List.zip_nil_right]
    refine ⟨rfl, fun j => ?_⟩
    rw [if_neg (by omega)]
    rfl
  | succ n ih =>
    unfold writeValues at hw
    split at hw
    · simp at hw
    rename_i t hget
    split at hw
    · simp at hw
    rename_i w hword
    obtain ⟨ws', hrest, rfl⟩ := Option.map_eq_some_iff.mp hw
    have hv := fromWord_toWord hword
    have ht : sigs.getD i .invalid = t := by rw [List.getD_eq_getElem?_getD, hget, Option.getD_some]
    have hdrop : sigs.drop i = t :: sigs.drop (i + 1) := by
      obtain ⟨hlt, hval⟩ := List.getElem?_eq_some_iff.mp hget
      rw [List.drop_eq_getElem_cons hlt, hval]
    obtain ⟨hok, hdata⟩ := ih (smp.setData i (carried conv t (data i))) hrest
    rw [hdrop, List.zip_cons_cons, readValues, hv]
    refine ⟨hok, fun j => ?_⟩
    dsimp only
    rw [hdata, setData_data]
    by_cases hij : j = i
    · subst hij
      rw [if_neg (by omega), if_pos rfl, if_pos (by omega), ht]
    · by_cases hin : i ≤ j ∧ j < i + (n + 1)
      · rw [if_pos (by omega), if_pos hin]
      · rw [if_neg (by omega), if_neg hij, if_neg hin]

/-! ## One sample -/

/-- What a receiver has to get of a sample. -/
structure SameSample (smp smp' : Payload) : Prop where
  sequence : smp'.sequence = smp.sequence
  origin : smp'.origin = smp.origin
  length : smp'.length = smp.length
  data : ∀ i < smp.length, smp'.data i = smp.data i

namespace VillasBinaryFormat

variable (fmt : VillasBinaryFormat)

structure Encodable (smp : Payload) : Prop where
  signals : smp.signals = fmt.signals
  sequence : smp.sequence.toNat < 2 ^ 32
  sec : smp.origin.sec.toNat < 2 ^ 32
  nsec : smp.origin.nsec.toNat < 2 ^ 32
  length_le : smp.length ≤ 65535
  length_le_signals : smp.length ≤ (fmt.lists fmt.signals).length
  exact : ∀ i t, i < smp.length → (fmt.lists fmt.signals)[i]? = some t → Exact fmt.conv t (smp.data i)

theorem msgFromSample_valid {smp : Payload} {m : Msg} (hlen : smp.length ≤ 65535)
    (hm : msgFromSample conv sigs smp = some m) : m.Valid ∧ m.data.length = smp.length := by
  obtain ⟨data, hdata, rfl⟩ := Option.map_eq_some_iff.mp hm
  have hlength := writeValues_length hdata
  refine ⟨⟨rfl, rfl, rfl, ?_⟩, hlength⟩
  dsimp only
  rw [BitVec.toNat_ofNat, hlength]
  omega

theorem decode_of_read {m : Msg} (hm : m.Valid) {rx : Receiver} {payload : Payload}
    (hread : readValues fmt.conv 0 (((fmt.lists fmt.signals).zip m.data).take
      (min (min m.data.length rx.capacity) (fmt.lists fmt.signals).length)) (fmt.receive rx).payload =
        (payload, true)) :
    fmt.decode m rx =
      ({ payload with
          flags := SampleFlags.hasTsOrigin ||| SampleFlags.hasSequence ||| SampleFlags.hasData
          length := min (min m.data.length rx.capacity) (fmt.lists fmt.signals).length
          sequence := m.sequence.setWidth 64
          origin := ⟨m.sec.setWidth 64, m.nsec.setWidth 64⟩ }, 0) := by
  unfold decode msgToSample
  rw [hm.verify, hm.length]
  dsimp only
  rw [hread]
  rfl

theorem writeValues_le {i n : Nat} {ws : List (BitVec 32)}
    (hw : writeValues conv sigs data i n = some ws) : n = 0 ∨ i + n ≤ sigs.length := by
  induction n generalizing i ws with
  | zero => exact .inl rfl
  | succ n ih =>
    unfold writeValues at hw
    split at hw
    · simp at hw
    rename_i t hget
    split at hw
    · simp at hw
    obtain ⟨ws', hrest, -⟩ := Option.map_eq_some_iff.mp hw
    obtain ⟨hlt, -⟩ := List.getElem?_eq_some_iff.mp hget
    have := ih hrest
    omega

theorem decode_carried {smp : Payload} {m : Msg} {rx : Receiver}
    (hlists : fmt.lists smp.signals = fmt.lists fmt.signals) (hle : smp.length ≤ 65535)
    (hcap : smp.length ≤ rx.capacity)
    (hm : msgFromSample fmt.conv (fmt.lists smp.signals) smp = some m) :
    (fmt.decode m rx).2 = 0 ∧ fmt.Holds m rx ∧
      (fmt.decode m rx).1.sequence = m.sequence.setWidth 64 ∧
      (fmt.decode m rx).1.origin = ⟨m.sec.setWidth 64, m.nsec.setWidth 64⟩ ∧
      (fmt.decode m rx).1.length = smp.length ∧
      ∀ i < smp.length, (fmt.decode m rx).1.data i =
        carried fmt.conv ((fmt.lists fmt.signals).getD i .invalid) (smp.data i) := by
  obtain ⟨hvalid, hlength⟩ := msgFromSample_valid hle hm
  rw [hlists] at hm
  obtain ⟨ws, hws, hmsg⟩ := Option.map_eq_some_iff.mp hm
  have hdata : m.data = ws := by rw [← hmsg]
  have hlen := writeValues_le hws
  have hmin : min (min m.data.length rx.capacity) (fmt.lists fmt.signals).length = smp.length := by omega
  have htake : ((fmt.lists fmt.signals).zip m.data).take smp.length =
      ((fmt.lists fmt.signals).drop 0).zip ws := by
    rw [List.drop_zero, ← hdata]
    apply List.take_of_length_le
    rw [List.length_zip]
    omega
  obtain ⟨hok, hvalues⟩ := readValues_writeValues (fmt.receive rx).payload hws
  rcases hread : readValues fmt.conv 0 (((fmt.lists fmt.signals).drop 0).zip ws)
    (fmt.receive rx).payload with ⟨payload, ok⟩
  rw [hread] at hok hvalues
  dsimp only at hok hvalues
  subst hok
  rw [← htake, ← hmin] at hread
  rw [decode_of_read fmt hvalid hread, hmin]
  refine ⟨rfl, ⟨by omega, by omega⟩, rfl, rfl, rfl, ?_⟩
  intro i hi
  dsimp only
  rw [hvalues, if_pos (by omega)]

theorem decode_encoded {smp : Payload} {m : Msg} {rx : Receiver} (henc : fmt.Encodable smp)
    (hcap : smp.length ≤ rx.capacity)
    (hm : msgFromSample fmt.conv (fmt.lists smp.signals) smp = some m) :
    (fmt.decode m rx).2 = 0 ∧ fmt.Holds m rx ∧ SameSample smp (fmt.decode m rx).1 := by
  have hlists : fmt.lists smp.signals = fmt.lists fmt.signals := by rw [henc.signals]
  obtain ⟨hok, hholds, hsequence, horigin, hlength, hdata⟩ :=
    fmt.decode_carried hlists henc.length_le hcap hm
  obtain ⟨ws, -, hmsg⟩ := Option.map_eq_some_iff.mp hm
  refine ⟨hok, hholds, ?_, ?_, hlength, fun i hi => ?_⟩
  · rw [hsequence, ← hmsg]
    exact setWidth_setWidth henc.sequence
  · rw [horigin, ← hmsg]
    dsimp only
    rw [setWidth_setWidth henc.sec, setWidth_setWidth henc.nsec]
  · have hlt : i < (fmt.lists fmt.signals).length := Nat.lt_of_lt_of_le hi henc.length_le_signals
    have hget := List.getElem?_eq_getElem hlt
    rw [hdata i hi, List.getD_eq_getElem?_getD, hget, Option.getD_some,
      (henc.exact i _ hi hget).carried]

/-! ## All samples -/

theorem sprintLoop_frames {room : Nat} {smps : List Payload} {bytes : List Byte}
    (hle : ∀ smp ∈ smps, smp.length ≤ 65535)
    (hprint : fmt.sprintLoop room smps = .ok (bytes, smps.length)) :
    ∃ ms, List.Forall₂ (fun smp m => msgFromSample fmt.conv (fmt.lists smp.signals) smp = some m) smps ms ∧
      (∀ m ∈ ms, m.Valid) ∧ bytes = fmt.frames ms := by
  induction smps generalizing room bytes with
  | nil =>
    cases hprint
    exact ⟨[], .nil, by simp, rfl⟩
  | cons smp smps ih =>
    rw [List.forall_mem_cons] at hle
    unfold sprintLoop at hprint
    split at hprint
    · simp at hprint
    split at hprint
    · simp at hprint
    rename_i m hm
    dsimp only at hprint
    split at hprint
    · simp at hprint
    rename_i bytes' i hrest
    rw [Except.ok.injEq, Prod.mk.injEq, List.length_cons] at hprint
    obtain ⟨rfl, hi⟩ := hprint
    obtain rfl : i = smps.length := by omega
    obtain ⟨ms, hms, hvalids, rfl⟩ := ih hle.2 hrest
    obtain ⟨hvalid, -⟩ := msgFromSample_valid hle.1 hm
    refine ⟨m :: ms, .cons hm hms, List.forall_mem_cons.mpr ⟨hvalid, hvalids⟩, ?_⟩
    rw [frames_cons, wire_bytes fmt hvalid.length]

theorem scanMsgs_decoded {P : Payload → Payload → Prop} {smps : List Payload} {ms : List Msg}
    {rxs : List Receiver} (hvalid : ∀ m ∈ ms, m.Valid)
    (hms : List.Forall₂ (fun smp m => msgFromSample fmt.conv (fmt.lists smp.signals) smp = some m) smps ms)
    (hdecode : ∀ smp ∈ smps, ∀ m rx, smp.length ≤ rx.capacity →
      msgFromSample fmt.conv (fmt.lists smp.signals) smp = some m →
      (fmt.decode m rx).2 = 0 ∧ fmt.Holds m rx ∧ P smp (fmt.decode m rx).1)
    (hcnt : smps.length ≤ rxs.length)
    (hcap : ∀ (k : Nat) (smp : Payload) (rx : Receiver),
      smps[k]? = some smp → rxs[k]? = some rx → smp.length ≤ rx.capacity) :
    fmt.Fits ms rxs ∧ (fmt.scanMsgs ms rxs).result = .ok (smps.length, (fmt.frames ms).length) ∧
      ∀ (k : Nat) (smp : Payload), smps[k]? = some smp →
        ∃ rx : Receiver, (fmt.scanMsgs ms rxs).smps[k]? = some rx ∧ P smp rx.payload := by
  induction hms generalizing rxs with
  | nil =>
    cases rxs with
    | nil => exact ⟨trivial, rfl, by simp⟩
    | cons rx rxs => exact ⟨trivial, rfl, by simp⟩
  | cons hm hrest ih =>
    rename_i smp m smps ms
    cases rxs with
    | nil => simp at hcnt
    | cons rx rxs =>
      rw [List.forall_mem_cons] at hdecode hvalid
      obtain ⟨hok, hholds, hsame⟩ := hdecode.1 m rx (hcap 0 smp rx rfl rfl) hm
      have hknown := (fmt.decode_spec hvalid.1 rx).1.mp hok
      obtain ⟨hfits, hresult, hsamples⟩ := ih hvalid.2 hdecode.2 (by simpa using hcnt)
        (fun k smp rx hsmp hrx => hcap (k + 1) smp rx hsmp hrx)
      rw [scanMsgs_known fmt hvalid.1 hknown]
      unfold Scanned.cons
      refine ⟨fun _ => ⟨hholds, hfits⟩, ?_, fun k s hs => ?_⟩
      · rw [hresult, frames_cons, List.length_append, bytes_length]
        rfl
      · cases k with
        | zero =>
          cases hs
          exact ⟨_, rfl, hsame⟩
        | succ k => exact hsamples k s hs

/-- If `sprint` writes all samples, each with at most as many values as a message can have, `sscan`
reads as many samples from as many bytes. -/
theorem sscan_sprinted {P : Payload → Payload → Prop} {len : Nat} {smps : List Payload}
    {bytes : List Byte} {rxs : List Receiver} (hle : ∀ smp ∈ smps, smp.length ≤ 65535)
    (hdecode : ∀ smp ∈ smps, ∀ m rx, smp.length ≤ rx.capacity →
      msgFromSample fmt.conv (fmt.lists smp.signals) smp = some m →
      (fmt.decode m rx).2 = 0 ∧ fmt.Holds m rx ∧ P smp (fmt.decode m rx).1)
    (hprint : fmt.sprint len smps = .ok (bytes, smps.length)) (hcnt : smps.length ≤ rxs.length)
    (hcap : ∀ (k : Nat) (smp : Payload) (rx : Receiver),
      smps[k]? = some smp → rxs[k]? = some rx → smp.length ≤ rx.capacity) :
    (fmt.sscan bytes rxs).result = .ok (smps.length, bytes.length) ∧
      ∀ (k : Nat) (smp : Payload), smps[k]? = some smp →
        ∃ rx : Receiver, (fmt.sscan bytes rxs).smps[k]? = some rx ∧ P smp rx.payload := by
  obtain ⟨ms, hms, hvalid, rfl⟩ := fmt.sprintLoop_frames hle hprint
  obtain ⟨hfits, hresult, hsamples⟩ := fmt.scanMsgs_decoded hvalid hms hdecode hcnt hcap
  rw [sscan_frames, sscanLoop_fits fmt hvalid hfits]
  exact ⟨hresult, hsamples⟩

/-- If `sprint` writes all samples, `sscan` reads as many samples from as many bytes, and each has
the sequence number, the timestamp, the length and the values that were written. -/
theorem binary_round_trip {len : Nat} {smps : List Payload} {bytes : List Byte} (rxs : List Receiver)
    (henc : ∀ smp ∈ smps, fmt.Encodable smp)
    (hprint : fmt.sprint len smps = .ok (bytes, smps.length)) (hcnt : smps.length ≤ rxs.length)
    (hcap : ∀ (k : Nat) (smp : Payload) (rx : Receiver),
      smps[k]? = some smp → rxs[k]? = some rx → smp.length ≤ rx.capacity) :
    (fmt.sscan bytes rxs).result = .ok (smps.length, bytes.length) ∧
      ∀ (k : Nat) (smp : Payload), smps[k]? = some smp →
        ∃ rx : Receiver, (fmt.sscan bytes rxs).smps[k]? = some rx ∧ SameSample smp rx.payload := by
  exact fmt.sscan_sprinted (fun smp hsmp => (henc smp hsmp).length_le)
    (fun smp hsmp _ _ hcap hm => fmt.decode_encoded (henc smp hsmp) hcap hm) hprint hcnt hcap

end VillasBinaryFormat

def exampleOut (sequence : BitVec 64) (v : Value) : Payload :=
  { exampleReceiver.payload with sequence, length := 1, origin := ⟨5, 6⟩, data := fun _ => v }

theorem exampleOut_encodable (sequence : BitVec 64) (hsequence : sequence.toNat < 2 ^ 32) (v : Value)
    (hv : v.toNat < 2 ^ 32) : exampleFormat.Encodable (exampleOut sequence v) := by
  have hsec : (5 : BitVec 64).toNat < 2 ^ 32 := by decide
  have hnsec : (6 : BitVec 64).toNat < 2 ^ 32 := by decide
  have hlength : 1 ≤ 65535 := by decide
  refine ⟨rfl, hsequence, hsec, hnsec, hlength, Nat.le_refl 1, fun i t hi ht => .inl ⟨?_, hv⟩⟩
  obtain rfl : i = 0 := Nat.lt_one_iff.mp hi
  cases ht
  rfl

theorem binary_round_trip_two :
    ∃ bytes, exampleFormat.sprint 64 [exampleOut 1 7, exampleOut 2 8] = .ok (bytes, 2) ∧
      (exampleFormat.sscan bytes [exampleReceiver, exampleReceiver]).result = .ok (2, bytes.length) ∧
      ∀ (k : Nat) (smp : Payload), [exampleOut 1 7, exampleOut 2 8][k]? = some smp →
        ∃ rx : Receiver, (exampleFormat.sscan bytes [exampleReceiver, exampleReceiver]).smps[k]? = some rx ∧
          SameSample smp rx.payload := by
  obtain ⟨bytes, hprint⟩ : ∃ bytes, exampleFormat.sprint 64 [exampleOut 1 7, exampleOut 2 8] =
    .ok (bytes, 2) := ⟨_, rfl⟩
  refine ⟨bytes, hprint, exampleFormat.binary_round_trip [exampleReceiver, exampleReceiver] ?_ hprint
    (Nat.le_refl 2) ?_⟩
  · intro smp hsmp
    simp only [List.mem_cons, List.not_mem_nil, or_false] at hsmp
    rcases hsmp with rfl | rfl
    · exact exampleOut_encodable 1 (by decide) 7 (by decide)
    · exact exampleOut_encodable 2 (by decide) 8 (by decide)
  · intro k smp rx hsmp hrx
    have hmem := List.mem_of_getElem? hsmp
    have hmem' := List.mem_of_getElem? hrx
    simp only [List.mem_cons, List.not_mem_nil, or_false, or_self] at hmem hmem'
    rw [hmem']
    rcases hmem with rfl | rfl
    · exact Nat.le_refl 1
    · exact Nat.le_refl 1

end VillasNode
