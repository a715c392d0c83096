import VillasNode.VillasBinary.Wire

/-!
# Messages one after the other

A buffer of valid messages is read message by message if and only if every
message fits into its sample: `sscan` advances by the length of the sample, not
by the length of the message.
-/

namespace VillasNode

open ByteOrder

/-! ## One sample -/

/-- The types that `msg_to_sample` knows. -/
def SignalType.isWord (t : SignalType) : Prop := t = .float ∨ t = .integer

instance (t : SignalType) : Decidable t.isWord := inferInstanceAs (Decidable (_ ∨ _))

theorem fromWord_isSome (conv : FloatConv) (t : SignalType) (w : BitVec 32) :
    (fromWord conv t w).isSome ↔ t.isWord := by
  unfold SignalType.isWord
  cases t <;> simp [fromWord]

theorem readValues_ok (conv : FloatConv) (i : Nat) (vs : List (SignalType × BitVec 32)) (smp : Payload) :
    (readValues conv i vs smp).2 = true ↔ ∀ v ∈ vs, v.1.isWord := by
  induction vs generalizing i smp with
  | nil => simp [readValues]
  | cons v vs ih =>
    obtain ⟨t, w⟩ := v
    unfold readValues
    rw [List.forall_mem_cons, ← fromWord_isSome conv t w]
    cases fromWord conv t w with
    | none => simp
    | some v => simpa using ih (i + 1) (smp.setData i v)

theorem readValues_values (conv : FloatConv) {vs : List (SignalType × BitVec 32)}
    (hvs : ∀ v ∈ vs, v.1.isWord) (i : Nat) (smp : Payload) :
    ∃ p, readValues conv i vs smp = (p, true) ∧ (∀ k < i, p.data k = smp.data k) ∧
      ∀ j v, vs[j]? = some v → fromWord conv v.1 v.2 = some (p.data (i + j)) := by
  induction vs generalizing i smp with
  | nil => exact ⟨smp, rfl, fun _ _ => rfl, by simp⟩
  | cons v vs ih =>
    obtain ⟨t, w⟩ := v
    rw [List.forall_mem_cons] at hvs
    obtain ⟨x, hx⟩ := Option.isSome_iff_exists.mp ((fromWord_isSome conv t w).mpr hvs.1)
    obtain ⟨p, hp, hbelow, hread⟩ := ih hvs.2 (i + 1) (smp.setData i x)
    refine ⟨p, ?_, fun k hk => ?_, fun j v hv => ?_⟩
    · rw [readValues, hx]
      exact hp
    · rw [hbelow k (by omega), setData_data, if_neg (by omega)]
    · cases j with
      | zero =>
        cases hv
        rw [Nat.add_zero, hbelow i (Nat.lt_succ_self i), setData_data, if_pos rfl]
        exact hx
      | succ j =>
        have := hread j v hv
        rwa [Nat.add_right_comm] at this

theorem mem_zip_take {sigs : List SignalType} {data : List (BitVec 32)} {n : Nat} (hn : n ≤ data.length)
    (P : SignalType → Prop) : (∀ v ∈ (sigs.zip data).take n, P v.1) ↔ ∀ t ∈ sigs.take n, P t := by
  have hmap : ((sigs.zip data).take n).map Prod.fst = sigs.take n := by
    rw [List.zip_eq_zipWith, List.take_zipWith, ← List.zip_eq_zipWith, List.map_fst_zip]
    rw [List.length_take, List.length_take]
    omega
  rw [← hmap, List.forall_mem_map]

theorem Scanned.cons_inj {a b : Scanned} {smp : Receiver} {len : Nat}
    (heq : a.cons smp len = b.cons smp len) : a = b := by
  obtain ⟨asmps, aresult⟩ := a
  obtain ⟨bsmps, bresult⟩ := b
  unfold Scanned.cons at heq
  rw [Scanned.mk.injEq, List.cons.injEq] at heq
  obtain ⟨⟨-, rfl⟩, hresult⟩ := heq
  rw [Scanned.mk.injEq]
  refine ⟨rfl, ?_⟩
  rcases aresult with code | ⟨i, n⟩
  · rcases bresult with code' | ⟨j, k⟩
    · simpa [Except.map] using hresult
    · simp [Except.map] at hresult
  · rcases bresult with code' | ⟨j, k⟩
    · simp [Except.map] at hresult
    · simpa [Except.map] using hresult

namespace VillasBinaryFormat

variable (fmt : VillasBinaryFormat)

/-- The signals of the values that are read from the message are of known types. -/
def Known (m : Msg) (smp : Receiver) : Prop :=
  ∀ t ∈ (fmt.lists fmt.signals).take (min m.data.length smp.capacity), t.isWord

/-- The sample has room for all values of the message, and there is a signal for each. -/
def Holds (m : Msg) (smp : Receiver) : Prop :=
  m.data.length ≤ smp.capacity ∧ m.data.length ≤ (fmt.lists fmt.signals).length

theorem decode_spec {m : Msg} (hm : m.Valid) (smp : Receiver) :
    ((fmt.decode m smp).2 = 0 ↔ fmt.Known m smp) ∧
      ((fmt.decode m smp).2 = 0 → (fmt.decode m smp).1.length =
        min (min m.data.length smp.capacity) (fmt.lists fmt.signals).length) := by
  have hok := readValues_ok fmt.conv 0 (((fmt.lists fmt.signals).zip m.data).take
    (min (min m.data.length smp.capacity) (fmt.lists fmt.signals).length)) (fmt.receive smp).payload
  rw [mem_zip_take (by omega)] at hok
  have htake : (fmt.lists fmt.signals).take
      (min (min m.data.length smp.capacity) (fmt.lists fmt.signals).length) =
        (fmt.lists fmt.signals).take (min m.data.length smp.capacity) := by
    rw [← List.take_take, List.take_length]
  rw [htake] at hok
  unfold decode msgToSample Known
  rw [hm.verify, hm.length, ← hok]
  dsimp only
  generalize readValues fmt.conv 0 _ (fmt.receive smp).payload = r
  obtain ⟨payload, ok⟩ := r
  cases ok with
  | false => simp
  | true => simp

/-! ## All of them -/

/-- What `sscan` is for: the samples are decoded from the messages in order, and each message counts
with its length on the wire. -/
def scanMsgs : List Msg → List Receiver → Scanned
  | _, [] => ⟨[], .ok (0, 0)⟩
  | [], smp :: smps => ⟨fmt.receive smp :: smps, .ok (0, 0)⟩
  | m :: ms, smp :: smps =>
    let payload := (fmt.decode m smp).1
    if (fmt.decode m smp).2 ≠ 0 then
      ⟨{ smp with payload } :: smps, .error (fmt.decode m smp).2⟩
    else (scanMsgs ms smps).cons { smp with payload } (msgLen m.data.length)

/-- Every message that is read fits into its sample, up to the first one that ends the scan because
a signal is of another type. -/
def Fits : List Msg → List Receiver → Prop
  | m :: ms, smp :: smps => fmt.Known m smp → fmt.Holds m smp ∧ Fits ms smps
  | _, _ => True

def frames (ms : List Msg) : List Byte := ms.flatMap (Msg.bytes fmt.wire)

theorem frames_cons (m : Msg) (ms : List Msg) : fmt.frames (m :: ms) = m.bytes fmt.wire ++ fmt.frames ms :=
  List.flatMap_cons

theorem frames_length (ms : List Msg) : (fmt.frames ms).length % 4 = 0 := by
  induction ms with
  | nil => rfl
  | cons m ms ih =>
    rw [frames_cons, List.length_append, bytes_length]
    unfold msgLen
    omega

theorem sscan_frames (ms : List Msg) (smps : List Receiver) :
    fmt.sscan (fmt.frames ms) smps = fmt.sscanLoop (fmt.frames ms) smps := by
  unfold sscan
  rw [frames_length]
  rfl

theorem sscanLoop_known {m : Msg} (hm : m.Valid) {smp : Receiver} (hknown : fmt.Known m smp)
    (ms : List Msg) (smps : List Receiver) :
    fmt.sscanLoop (fmt.frames (m :: ms)) (smp :: smps) =
      (fmt.sscanLoop ((m.bytes fmt.host ++ fmt.frames ms).drop (msgLen (fmt.decode m smp).1.length))
        smps).cons { smp with payload := (fmt.decode m smp).1 } (msgLen (fmt.decode m smp).1.length) := by
  have hok := (fmt.decode_spec hm smp).1.mpr hknown
  rw [frames_cons, sscanLoop_message fmt hm, hok]
  rfl

theorem scanMsgs_known {m : Msg} (hm : m.Valid) {smp : Receiver} (hknown : fmt.Known m smp)
    (ms : List Msg) (smps : List Receiver) :
    fmt.scanMsgs (m :: ms) (smp :: smps) =
      (fmt.scanMsgs ms smps).cons { smp with payload := (fmt.decode m smp).1 }
        (msgLen m.data.length) := by
  have hok := (fmt.decode_spec hm smp).1.mpr hknown
  rw [scanMsgs, hok]
  rfl

theorem decode_length {m : Msg} (hm : m.Valid) {smp : Receiver} (hknown : fmt.Known m smp)
    (hholds : fmt.Holds m smp) : (fmt.decode m smp).1.length = m.data.length := by
  obtain ⟨hiff, hlen⟩ := fmt.decode_spec hm smp
  rw [hlen (hiff.mpr hknown), Nat.min_eq_left hholds.1, Nat.min_eq_left hholds.2]

theorem sscanLoop_holds {m : Msg} (hm : m.Valid) {smp : Receiver} (hknown : fmt.Known m smp)
    (hholds : fmt.Holds m smp) (ms : List Msg) (smps : List Receiver) :
    fmt.sscanLoop (fmt.frames (m :: ms)) (smp :: smps) =
      (fmt.sscanLoop (fmt.frames ms) smps).cons { smp with payload := (fmt.decode m smp).1 }
        (msgLen m.data.length) := by
  rw [sscanLoop_known fmt hm hknown, decode_length fmt hm hknown hholds,
    List.drop_left' (bytes_length ..)]

theorem sscanLoop_fits {ms : List Msg} (hms : ∀ m ∈ ms, m.Valid) {smps : List Receiver}
    (hfits : fmt.Fits ms smps) : fmt.sscanLoop (fmt.frames ms) smps = fmt.scanMsgs ms smps := by
  induction ms generalizing smps with
  | nil =>
    cases smps with
    | nil => rfl
    | cons smp smps => rfl
  | cons m ms ih =>
    cases smps with
    | nil => rfl
    | cons smp smps =>
      rw [List.forall_mem_cons] at hms
      by_cases hknown : fmt.Known m smp
      · obtain ⟨hholds, hrest⟩ := hfits hknown
        rw [sscanLoop_holds fmt hms.1 hknown hholds, scanMsgs_known fmt hms.1 hknown, ih hms.2 hrest]
      · have herror := mt (fmt.decode_spec hms.1 smp).1.mp hknown
        rw [frames_cons, sscanLoop_message fmt hms.1, scanMsgs]
        dsimp only
        rw [if_pos herror, if_pos herror]

theorem Fits.take {ms : List Msg} {smps : List Receiver} (hfits : fmt.Fits ms smps) (cnt : Nat) :
    fmt.Fits ms (smps.take cnt) := by
  induction ms generalizing smps cnt with
  | nil => trivial
  | cons m ms ih =>
    cases smps with
    | nil =>
      rw [List.take_nil]
      trivial
    | cons smp smps =>
      cases cnt with
      | zero => trivial
      | succ cnt => exact fun hknown => ⟨(hfits hknown).1, ih (hfits hknown).2 cnt⟩

/-- For every buffer of valid messages and any samples: for each number of samples that are read,
the samples come from the messages in order and the position advances by the length of each message,
if and only if every message that is read fits into its sample. -/
theorem framing_iff {ms : List Msg} (hms : ∀ m ∈ ms, m.Valid) (smps : List Receiver) :
    (∀ cnt, fmt.sscan (fmt.frames ms) (smps.take cnt) = fmt.scanMsgs ms (smps.take cnt)) ↔
      fmt.Fits ms smps := by
  simp only [sscan_frames]
  constructor
  · intro hall
    induction ms generalizing smps with
    | nil => trivial
    | cons m ms ih =>
      cases smps with
      | nil => trivial
      | cons smp smps =>
        rw [List.forall_mem_cons] at hms
        intro hknown
        have hholds : fmt.Holds m smp := by
          -- One sample is read, and the position tells how many values it took.
          have hone := hall 1
          rw [List.take_succ_cons, List.take_zero, sscanLoop_known fmt hms.1 hknown,
            scanMsgs_known fmt hms.1 hknown] at hone
          obtain ⟨hiff, hlen⟩ := fmt.decode_spec hms.1 smp
          have hresult := congrArg Scanned.result hone
          simp only [Scanned.cons, sscanLoop, scanMsgs, Except.map, Except.ok.injEq, Prod.mk.injEq, msgLen,
            hlen (hiff.mpr hknown)] at hresult
          unfold Holds
          omega
        refine ⟨hholds, ih hms.2 smps fun cnt => ?_⟩
        have hmore := hall (cnt + 1)
        rw [List.take_succ_cons, sscanLoop_holds fmt hms.1 hknown hholds,
          scanMsgs_known fmt hms.1 hknown] at hmore
        exact Scanned.cons_inj hmore
  · intro hfits cnt
    exact sscanLoop_fits fmt hms (hfits.take fmt cnt)

end VillasBinaryFormat

/-! ## A sample that is too small -/

def exampleFormat : VillasBinaryFormat :=
  { host := .little, conv := ⟨fun v => v.setWidth 32, fun w => w.setWidth 64⟩, web := false
    signals := 0, lists := fun _ => [.integer] }

def exampleMsg (sequence : BitVec 32) (data : List (BitVec 32)) : Msg :=
  { version := msgVersion, type := msgTypeData, reserved1 := 0, id := 0
    length := BitVec.ofNat 16 data.length, sequence, sec := 0, nsec := 0, data }

def exampleReceiver : Receiver :=
  { capacity := 1
    payload := { sequence := 0, length := 0, flags := 0, signals := 0, origin := ⟨0, 0⟩
                 received := ⟨0, 0⟩, data := fun _ => 0 } }

theorem exampleMsgs_valid {sequence sequence' : BitVec 32} {data data' : List (BitVec 32)}
    (hdata : data.length < 2 ^ 16) (hdata' : data'.length < 2 ^ 16) :
    ∀ m ∈ [exampleMsg sequence data, exampleMsg sequence' data'], m.Valid := by
  intro m hm
  simp only [List.mem_cons, List.not_mem_nil, or_false] at hm
  rcases hm with rfl | rfl
  · exact ⟨rfl, rfl, rfl, BitVec.toNat_ofNat .. |>.trans (Nat.mod_eq_of_lt hdata)⟩
  · exact ⟨rfl, rfl, rfl, BitVec.toNat_ofNat .. |>.trans (Nat.mod_eq_of_lt hdata')⟩

/-- Of the five values of the first message, four are taken for the second message. -/
theorem sscan_reads_inside_message :
    (∀ m ∈ [exampleMsg 1 [7, 0x20, 3, 0, 0], exampleMsg 2 [8]], m.Valid) ∧
      ¬ ∀ cnt, exampleFormat.sscan (exampleFormat.frames [exampleMsg 1 [7, 0x20, 3, 0, 0], exampleMsg 2 [8]])
          ([exampleReceiver, exampleReceiver].take cnt) =
        exampleFormat.scanMsgs [exampleMsg 1 [7, 0x20, 3, 0, 0], exampleMsg 2 [8]]
          ([exampleReceiver, exampleReceiver].take cnt) := by
  refine ⟨exampleMsgs_valid (by decide) (by decide), fun hall => ?_⟩
  have hseq := congrArg (fun s => s.smps.map fun smp => smp.payload.sequence) (hall 2)
  exact absurd hseq (by decide)

theorem framing_iff_fitting :
    (∀ m ∈ [exampleMsg 1 [7], exampleMsg 2 [8]], m.Valid) ∧
      ∀ cnt, exampleFormat.sscan (exampleFormat.frames [exampleMsg 1 [7], exampleMsg 2 [8]])
          ([exampleReceiver, exampleReceiver].take cnt) =
        exampleFormat.scanMsgs [exampleMsg 1 [7], exampleMsg 2 [8]]
          ([exampleReceiver, exampleReceiver].take cnt) := by
  have hms : ∀ m ∈ [exampleMsg 1 [7], exampleMsg 2 [8]], m.Valid :=
    exampleMsgs_valid (by decide) (by decide)
  refine ⟨hms, (exampleFormat.framing_iff hms [exampleReceiver, exampleReceiver]).mpr ?_⟩
  exact fun _ => ⟨⟨by decide, by decide⟩, fun _ => ⟨⟨by decide, by decide⟩, trivial⟩⟩

end VillasNode
