import Mathlib.Algebra.Ring.Nat
import VillasNode.VillasBinary.Memory
import VillasNode.VillasBinary.RoundTrip

/-!
# The client in the browser

`web/socket/msg.js`, which reads and writes messages with explicit offsets and
shifts, against the web variant of the format on a little endian host. A
`RangeError` is `none`. Timestamps are numbers with a fraction, made of two
words by one function and taken apart again by two others.
-/

namespace VillasNode.WebClient

open ByteOrder ByteMemory VillasBinaryFormat

/-- The numbers that a `Msg` counts with, and how its timestamp is made of seconds and nanoseconds
and gives two words again. -/
structure Timestamps (τ : Type) where
  join : Nat → Nat → τ
  sec : τ → BitVec 32
  nsec : τ → BitVec 32

/-- The values are the elements of a `Float32Array`. -/
structure WebMsg (τ : Type) where
  version : Nat
  type : Nat
  length : Nat
  sequence : Nat
  timestamp : τ
  data : List (BitVec 32)

/-- `Msg.bytes` -/
def bytes (len : Nat) : Nat := len * 4 + 16

def offsetType : Nat := 2
def offsetVersion : Nat := 4

variable {τ : Type} (ts : Timestamps τ)

/-! ## Reading -/

/-- `DataView.prototype.getUint8` and so on, little endian, for a view that starts at `byteOffset`. -/
def getUint (buffer : List Byte) (byteOffset w off : Nat) : Option (BitVec w) :=
  if byteOffset + off + w / 8 ≤ buffer.length then
    some (ByteOrder.load .little w ((buffer.drop (byteOffset + off)).take (w / 8)))
  else none

/-- `new Float32Array` in the byte order of the platform. -/
def float32Array (platform : Endian) (buffer : List Byte) (byteOffset length : Nat) :
    Option (List (BitVec 32)) :=
  if byteOffset % 4 = 0 ∧ byteOffset + 4 * length ≤ buffer.length then
    some (loadAll platform 32 length (buffer.drop byteOffset))
  else none

/-- `Msg.fromArrayBuffer` for a view that starts at `byteOffset`, with the length of `msg.blob`. -/
def fromArrayBuffer (platform : Endian) (buffer : List Byte) (byteOffset : Nat) :
    Option (WebMsg τ × Nat) := do
  let bits ← getUint buffer byteOffset 8 0
  let _id ← getUint buffer byteOffset 8 0x01
  let length ← getUint buffer byteOffset 16 0x02
  let sequence ← getUint buffer byteOffset 32 0x04
  let sec ← getUint buffer byteOffset 32 0x08
  let nsec ← getUint buffer byteOffset 32 0x0C
  guard (byteOffset + bytes length.toNat ≤ buffer.length)
  let data ← float32Array platform buffer (byteOffset + 0x10) length.toNat
  return ({ version := (bits.toNat >>> offsetVersion) &&& 0xF
            type := (bits.toNat >>> offsetType) &&& 0x3
            length := length.toNat
            sequence := sequence.toNat
            timestamp := ts.join sec.toNat nsec.toNat
            data }, bytes length.toNat)

/-- The loop of `Msg.fromArrayBufferVector`, with so many rounds at most. -/
def vectorLoop (platform : Endian) (blob : List Byte) : Nat → Nat → Option (List (WebMsg τ))
  | 0, offset => if offset < blob.length then none else some []
  | rounds + 1, offset =>
    if offset < blob.length then do
      let (msg, byteLength) ← fromArrayBuffer ts platform blob offset
      let msgs ← vectorLoop platform blob rounds (offset + byteLength)
      return msg :: msgs
    else some []

/-- `Msg.fromArrayBufferVector`. Each round takes at least one byte. -/
def fromArrayBufferVector (platform : Endian) (blob : List Byte) : Option (List (WebMsg τ)) :=
  vectorLoop ts platform blob blob.length 0

/-! ## Writing -/

/-- `Msg.prototype.toArrayBuffer` -/
def toArrayBuffer (platform : Endian) (msg : WebMsg τ) : Option (List Byte) :=
  let buffer := List.replicate (bytes msg.length) 0
  let bits := (msg.version &&& 0xF) <<< offsetVersion ||| (msg.type &&& 0x3) <<< offsetType
  let buffer := overwrite 0x00 (store .little 8 (BitVec.ofNat 8 bits)) buffer
  let buffer := overwrite 0x02 (store .little 16 (BitVec.ofNat 16 msg.length)) buffer
  let buffer := overwrite 0x04 (store .little 32 (BitVec.ofNat 32 msg.sequence)) buffer
  let buffer := overwrite 0x08 (store .little 32 (ts.sec msg.timestamp)) buffer
  let buffer := overwrite 0x0C (store .little 32 (ts.nsec msg.timestamp)) buffer
  if msg.data.length ≤ msg.length then some (overwrite 0x10 (storeAll platform 32 msg.data) buffer)
  else none

/-! ## One message -/

variable {ts}

theorem getUint_field {m : Msg} {pre post : List Byte} {off w : Nat} {x : BitVec w}
    {set : BitVec w → Msg} (hw : 8 ∣ w) (hf : FieldAt .little m off w x set) :
    getUint (pre ++ (m.bytes .little ++ post)) pre.length w off = some x := by
  obtain ⟨a, c, ha, hbytes, -⟩ := hf
  have hsplit : pre ++ (m.bytes .little ++ post) = (pre ++ a) ++ (store .little w x ++ (c ++ post)) := by
    rw [hbytes]
    simp only [List.append_assoc]
  have hlen : (pre ++ a).length = pre.length + off := by rw [List.length_append, ha]
  unfold getUint
  rw [hsplit, ← hlen, List.drop_left, List.take_left' (store_length ..), load_store hw, if_pos]
  simp only [List.length_append, store_length]
  omega

theorem shifted_fields : ∀ (v : BitVec 4) (t r : BitVec 2),
    (((v ++ t ++ r : BitVec 8).toNat >>> offsetVersion) &&& 0xF) = v.toNat ∧
      (((v ++ t ++ r : BitVec 8).toNat >>> offsetType) &&& 0x3) = t.toNat := by
  decide

/-- What the client sees in a message. -/
def view (ts : Timestamps τ) (m : Msg) : WebMsg τ :=
  { version := m.version.toNat, type := m.type.toNat, length := m.length.toNat
    sequence := m.sequence.toNat, timestamp := ts.join m.sec.toNat m.nsec.toNat, data := m.data }

theorem id_at (m : Msg) : FieldAt .little m 1 8 m.id fun id => { m with id } := by
  refine ⟨[m.version ++ m.type ++ m.reserved1], store .little 16 m.length ++ (store .little 32 m.sequence ++
    (store .little 32 m.sec ++ (store .little 32 m.nsec ++ storeAll .little 32 m.data))), rfl, ?_,
    fun y => ?_⟩
  · rw [store_byte]
    rfl
  · rw [store_byte]
    rfl

theorem drop_header (m : Msg) (pre post : List Byte) :
    (pre ++ (m.bytes .little ++ post)).drop (pre.length + 0x10) = storeAll .little 32 m.data ++ post := by
  have hsplit : m.bytes .little ++ post = ([m.version ++ m.type ++ m.reserved1, m.id] ++
      (store .little 16 m.length ++ (store .little 32 m.sequence ++ (store .little 32 m.sec ++
        store .little 32 m.nsec)))) ++ (storeAll .little 32 m.data ++ post) := by
    unfold Msg.bytes
    simp only [List.append_assoc]
  rw [← List.drop_drop, List.drop_left, hsplit]
  apply List.drop_left'
  simp only [List.length_append, store_length]
  rfl

theorem fromArrayBuffer_message {m : Msg} (hm : m.Valid) {pre post : List Byte}
    (halign : pre.length % 4 = 0) :
    fromArrayBuffer ts .little (pre ++ (m.bytes .little ++ post)) pre.length =
      some (view ts m, msgLen m.data.length) := by
  have hlen : (pre ++ (m.bytes .little ++ post)).length = pre.length + (msgLen m.data.length + post.length) := by
    rw [List.length_append, List.length_append, bytes_length]
  have hdata : float32Array .little (pre ++ (m.bytes .little ++ post)) (pre.length + 0x10) m.data.length =
      some m.data := by
    unfold float32Array
    rw [if_pos (by rw [hlen]; unfold msgLen; omega), drop_header, loadAll_storeAll]
    simp only [load_store (show 8 ∣ 32 by decide), List.map_id']
  have hblob : pre.length + bytes m.data.length ≤ (pre ++ (m.bytes .little ++ post)).length := by
    rw [hlen]
    unfold bytes msgLen
    omega
  obtain ⟨hversion, htype⟩ := shifted_fields m.version m.type m.reserved1
  unfold fromArrayBuffer
  simp only [getUint_field (by decide) (first_at .little m), getUint_field (by decide) (id_at m),
    getUint_field (by decide) (length_at .little m), getUint_field (by decide) (sequence_at .little m),
    getUint_field (by decide) (sec_at .little m), getUint_field (by decide) (nsec_at .little m),
    hm.length, hdata, hblob, hversion, htype, guard, if_true, Option.bind_eq_bind, Option.bind_some]
  have hbytes : bytes m.data.length = msgLen m.data.length := by
    unfold bytes msgLen
    omega
  unfold view
  rw [hm.length, hbytes]
  rfl

theorem vectorLoop_messages {ms : List Msg} (hms : ∀ m ∈ ms, m.Valid) (pre : List Byte) {rounds : Nat}
    (halign : pre.length % 4 = 0) (hrounds : ms.length ≤ rounds) :
    vectorLoop ts .little (pre ++ ms.flatMap (Msg.bytes .little)) rounds pre.length =
      some (ms.map (view ts)) := by
  induction ms generalizing pre rounds with
  | nil =>
    have hend : ¬ pre.length < (pre ++ [].flatMap (Msg.bytes .little)).length := by simp
    cases rounds with
    | zero => rw [vectorLoop, if_neg hend, List.map_nil]
    | succ rounds => rw [vectorLoop, if_neg hend, List.map_nil]
  | cons m ms ih =>
    rw [List.forall_mem_cons] at hms
    cases rounds with
    | zero => simp at hrounds
    | succ rounds =>
      have hpre : (pre ++ m.bytes .little).length = pre.length + msgLen m.data.length := by
        rw [List.length_append, bytes_length]
      have hrest := ih hms.2 (pre ++ m.bytes .little) (by rw [hpre]; unfold msgLen; omega)
        (Nat.le_of_succ_le_succ hrounds)
      rw [hpre, List.append_assoc] at hrest
      have hlt : pre.length < (pre ++ (m.bytes .little ++ ms.flatMap (Msg.bytes .little))).length := by
        rw [List.length_append, List.length_append, bytes_length]
        unfold msgLen
        omega
      rw [List.flatMap_cons, vectorLoop, if_pos hlt, fromArrayBuffer_message hms.1 halign]
      simp only [Option.bind_eq_bind, Option.bind_some, hrest]
      rfl

theorem flatMap_length_le (ms : List Msg) :
    ms.length ≤ (ms.flatMap (Msg.bytes .little)).length := by
  induction ms with
  | nil => exact Nat.le_refl 0
  | cons m ms ih =>
    rw [List.flatMap_cons, List.length_append, List.length_cons, bytes_length]
    unfold msgLen
    omega

theorem fromArrayBufferVector_messages {ms : List Msg} (hms : ∀ m ∈ ms, m.Valid) :
    fromArrayBufferVector ts .little (ms.flatMap (Msg.bytes .little)) = some (ms.map (view ts)) :=
  vectorLoop_messages hms [] rfl (flatMap_length_le ms)

/-- The message that the client writes. -/
def written (ts : Timestamps τ) (msg : WebMsg τ) : Msg :=
  { version := msgVersion, type := msgTypeData, reserved1 := 0, id := 0
    length := BitVec.ofNat 16 msg.length, sequence := BitVec.ofNat 32 msg.sequence
    sec := ts.sec msg.timestamp, nsec := ts.nsec msg.timestamp, data := msg.data }

theorem overwrite_front {b bs c : List Byte} (hb : b.length = bs.length) :
    overwrite 0 bs (b ++ c) = bs ++ c := by
  unfold overwrite
  rw [List.take_zero, List.nil_append, List.drop_left' (by omega)]

theorem overwrite_behind {a r bs : List Byte} {p : Nat} (q : Nat) (ha : a.length + q = p) :
    overwrite p bs (a ++ r) = a ++ overwrite q bs r := by
  unfold overwrite
  subst ha
  rw [List.take_length_add_append, Nat.add_assoc, List.drop_length_add_append, List.append_assoc]

theorem overwrite_fields {b₀ b z l₀ l s₀ s c₀ c n₀ n d₀ d : List Byte} (hb₀ : b₀.length = 1)
    (hb : b.length = 1) (hz : z.length = 1) (hl₀ : l₀.length = 2) (hl : l.length = 2)
    (hs₀ : s₀.length = 4) (hs : s.length = 4) (hc₀ : c₀.length = 4) (hc : c.length = 4)
    (hn₀ : n₀.length = 4) (hn : n.length = 4) (hd : d₀.length = d.length) :
    overwrite 0x10 d (overwrite 0x0C n (overwrite 0x08 c (overwrite 0x04 s (overwrite 0x02 l
      (overwrite 0x00 b (b₀ ++ (z ++ (l₀ ++ (s₀ ++ (c₀ ++ (n₀ ++ (d₀ ++ []))))))))))))  =
        b ++ (z ++ (l ++ (s ++ (c ++ (n ++ d))))) := by
  have h₂ : ∀ r, overwrite 0x02 l (b ++ (z ++ (l₀ ++ r))) = b ++ (z ++ (l ++ r)) := by
    intro r
    rw [overwrite_behind 1, overwrite_behind 0, overwrite_front]
    all_goals omega
  have h₄ : ∀ r, overwrite 0x04 s (b ++ (z ++ (l ++ (s₀ ++ r)))) = b ++ (z ++ (l ++ (s ++ r))) := by
    intro r
    rw [overwrite_behind 3, overwrite_behind 2, overwrite_behind 0, overwrite_front]
    all_goals omega
  have h₈ : ∀ r, overwrite 0x08 c (b ++ (z ++ (l ++ (s ++ (c₀ ++ r))))) =
      b ++ (z ++ (l ++ (s ++ (c ++ r)))) := by
    intro r
    rw [overwrite_behind 7, overwrite_behind 6, overwrite_behind 4, overwrite_behind 0, overwrite_front]
    all_goals omega
  have h₁₂ : ∀ r, overwrite 0x0C n (b ++ (z ++ (l ++ (s ++ (c ++ (n₀ ++ r)))))) =
      b ++ (z ++ (l ++ (s ++ (c ++ (n ++ r))))) := by
    intro r
    rw [overwrite_behind 11, overwrite_behind 10, overwrite_behind 8, overwrite_behind 4,
      overwrite_behind 0, overwrite_front]
    all_goals omega
  rw [overwrite_front (by omega), h₂, h₄, h₈, h₁₂]
  rw [overwrite_behind 15, overwrite_behind 14, overwrite_behind 12, overwrite_behind 8,
    overwrite_behind 4, overwrite_behind 0, overwrite_front hd, List.append_nil]
  all_goals omega

/-- A message of the client with the constants of the protocol. -/
structure Plain (msg : WebMsg τ) : Prop where
  version : msg.version = 2
  type : msg.type = 0
  sequence : msg.sequence < 2 ^ 32
  length : msg.length = msg.data.length
  length_le : msg.data.length ≤ 65535

theorem toArrayBuffer_plain {msg : WebMsg τ} (hmsg : Plain msg) :
    toArrayBuffer ts .little msg = some ((written ts msg).bytes .little) := by
  have hempty : List.replicate (bytes msg.length) (0 : Byte) = [0] ++ ([0] ++ (List.replicate 2 0 ++
      (List.replicate 4 0 ++ (List.replicate 4 0 ++ (List.replicate 4 0 ++
        (List.replicate (4 * msg.data.length) 0 ++ [])))))) := by
    have hsize : bytes msg.length = 1 + (1 + (2 + (4 + (4 + (4 + 4 * msg.data.length))))) := by
      unfold bytes
      rw [hmsg.length]
      omega
    rw [hsize]
    simp only [List.replicate_add, List.append_nil]
    rfl
  have hbits : BitVec.ofNat 8 ((msg.version &&& 0xF) <<< offsetVersion |||
      (msg.type &&& 0x3) <<< offsetType) = msgVersion ++ msgTypeData ++ (0 : BitVec 2) := by
    rw [hmsg.version, hmsg.type]
    rfl
  unfold toArrayBuffer
  dsimp only
  rw [hempty, hbits, store_byte, if_pos (Nat.le_of_eq hmsg.length.symm), overwrite_fields rfl rfl rfl rfl
    (store_length ..) rfl (store_length ..) rfl (store_length ..) rfl (store_length ..)
    (by rw [storeAll_length, List.length_replicate])]
  rfl

/-! ## From the host to the client -/

variable {fmt : VillasBinaryFormat}

/-- A sample of floats that a message can hold. -/
structure Sendable (fmt : VillasBinaryFormat) (smp : Payload) : Prop where
  sequence : smp.sequence.toNat < 2 ^ 32
  sec : smp.origin.sec.toNat < 2 ^ 32
  nsec : smp.origin.nsec.toNat < 2 ^ 32
  length_le : smp.length ≤ 65535
  floats : ∀ i < smp.length, (fmt.lists smp.signals)[i]? = some .float

/-- The values of a sample as 32-bit patterns. -/
def patterns (fmt : VillasBinaryFormat) (smp : Payload) : List (BitVec 32) :=
  (List.range' 0 smp.length).map fun i => fmt.conv.narrow (smp.data i)

theorem writeValues_floats {conv : FloatConv} {sigs : List SignalType} {data : Nat → Value} {i n : Nat}
    (h : ∀ j, i ≤ j → j < i + n → sigs[j]? = some .float) :
    writeValues conv sigs data i n = some ((List.range' i n).map fun i => conv.narrow (data i)) := by
  induction n generalizing i with
  | zero => rfl
  | succ n ih =>
    have hrest := ih (i := i + 1) fun j hj hlt => h j (by omega) (by omega)
    rw [writeValues, h i (Nat.le_refl i) (by omega)]
    dsimp only [toWord]
    rw [hrest, List.range'_succ, List.map_cons, Option.map_some]

def sent (fmt : VillasBinaryFormat) (smp : Payload) : Msg :=
  { version := msgVersion, type := msgTypeData, reserved1 := 0, id := 0
    length := BitVec.ofNat 16 smp.length
    sequence := smp.sequence.setWidth 32
    sec := smp.origin.sec.setWidth 32
    nsec := smp.origin.nsec.setWidth 32
    data := patterns fmt smp }

theorem msgFromSample_floats {smp : Payload} (h : Sendable fmt smp) :
    msgFromSample fmt.conv (fmt.lists smp.signals) smp = some (sent fmt smp) := by
  unfold msgFromSample
  rw [writeValues_floats fun j _ hlt => h.floats j (by omega)]
  rfl

theorem sent_valid {smp : Payload} (h : Sendable fmt smp) : (sent fmt smp).Valid :=
  (msgFromSample_valid h.length_le (msgFromSample_floats h)).1

theorem sprintLoop_floats (hweb : fmt.web = true) {smps : List Payload}
    (hsmps : ∀ smp ∈ smps, Sendable fmt smp) (room : Nat) :
    ∃ n ≤ smps.length, fmt.sprintLoop room smps =
        .ok (((smps.take n).map (sent fmt)).flatMap (Msg.bytes fmt.host), n) ∧
      ((smps.map fun smp => msgLen smp.length).sum ≤ room → n = smps.length) := by
  induction smps generalizing room with
  | nil => exact ⟨0, Nat.le_refl 0, rfl, fun _ => rfl⟩
  | cons smp smps ih =>
    rw [List.forall_mem_cons] at hsmps
    unfold sprintLoop
    split
    · refine ⟨0, Nat.zero_le _, rfl, fun hroom => ?_⟩
      rw [List.map_cons, List.sum_cons] at hroom
      omega
    · rename_i hfits
      obtain ⟨n, hn, hloop, hall⟩ := ih hsmps.2 (room - msgLen smp.length)
      refine ⟨n + 1, Nat.succ_le_succ hn, ?_, fun hroom => ?_⟩
      · rw [msgFromSample_floats hsmps.1]
        dsimp only
        rw [hloop]
        rfl
      · rw [List.map_cons, List.sum_cons] at hroom
        rw [hall (by omega), List.length_cons]

/-- What the client is to see of a sample. -/
def expected (ts : Timestamps τ) (fmt : VillasBinaryFormat) (smp : Payload) : WebMsg τ :=
  { version := 2, type := 0, length := smp.length, sequence := smp.sequence.toNat
    timestamp := ts.join smp.origin.sec.toNat smp.origin.nsec.toNat, data := patterns fmt smp }

theorem view_sent {smp : Payload} (h : Sendable fmt smp) : view ts (sent fmt smp) = expected ts fmt smp := by
  have hlength : (BitVec.ofNat 16 smp.length).toNat = smp.length := by
    have := h.length_le
    rw [BitVec.toNat_ofNat]
    omega
  unfold view sent expected
  dsimp only
  rw [hlength, BitVec.toNat_setWidth, BitVec.toNat_setWidth, BitVec.toNat_setWidth,
    Nat.mod_eq_of_lt h.sequence, Nat.mod_eq_of_lt h.sec, Nat.mod_eq_of_lt h.nsec]
  rfl

/-! ## From the client to the host -/

/-- The host has got a message of the client. -/
structure Received (fmt : VillasBinaryFormat) (msg : WebMsg τ) (smp : Payload) : Prop where
  length : smp.length = msg.length
  sequence : smp.sequence.toNat = msg.sequence
  data : ∀ (i : Nat) (w : BitVec 32), msg.data[i]? = some w → smp.data i = fmt.conv.widen w

/-- There is a signal for each value, and it is a float. -/
def Floats (fmt : VillasBinaryFormat) (n : Nat) : Prop :=
  ∀ i < n, (fmt.lists fmt.signals)[i]? = some .float

theorem written_valid (ts : Timestamps τ) {msg : WebMsg τ} (hmsg : Plain msg) : (written ts msg).Valid := by
  refine ⟨rfl, rfl, rfl, ?_⟩
  have := hmsg.length_le
  unfold written
  dsimp only
  rw [BitVec.toNat_ofNat, hmsg.length]
  omega

theorem Floats.le {n : Nat} (h : Floats fmt n) : n ≤ (fmt.lists fmt.signals).length := by
  cases n with
  | zero => exact Nat.zero_le _
  | succ n =>
    obtain ⟨hlt, -⟩ := List.getElem?_eq_some_iff.mp (h n (Nat.lt_succ_self n))
    exact hlt

theorem decode_written (ts : Timestamps τ) {msg : WebMsg τ} (hmsg : Plain msg) {rx : Receiver}
    (hcap : msg.data.length ≤ rx.capacity) (hfloats : Floats fmt msg.data.length) :
    (fmt.decode (written ts msg) rx).2 = 0 ∧ fmt.Holds (written ts msg) rx ∧
      Received fmt msg (fmt.decode (written ts msg) rx).1 := by
  have hlen := hfloats.le
  have hmin : min (min (written ts msg).data.length rx.capacity) (fmt.lists fmt.signals).length =
      msg.data.length := by
    unfold written
    dsimp only
    omega
  have hvs : ∀ v ∈ ((fmt.lists fmt.signals).zip msg.data).take msg.data.length, v.1 = .float := by
    apply (mem_zip_take (Nat.le_refl _) (· = SignalType.float)).mpr
    intro t ht
    obtain ⟨i, hi⟩ := List.mem_iff_getElem?.mp ht
    rw [List.getElem?_take] at hi
    split at hi
    · rename_i hlt
      rw [hfloats i hlt] at hi
      exact (Option.some.inj hi).symm
    · simp at hi
  obtain ⟨p, hread, -, hdata⟩ :=
    readValues_values fmt.conv (fun v hv => .inl (hvs v hv)) 0 (fmt.receive rx).payload
  rw [← hmin] at hread
  rw [decode_of_read fmt (written_valid ts hmsg) hread, hmin]
  refine ⟨rfl, ⟨hcap, hlen⟩, hmsg.length.symm, ?_, fun i w hw => ?_⟩
  · have hlt : msg.sequence < 2 ^ 64 := Nat.lt_trans hmsg.sequence (by decide)
    unfold written
    dsimp only
    rw [BitVec.toNat_setWidth, BitVec.toNat_ofNat, Nat.mod_eq_of_lt hmsg.sequence, Nat.mod_eq_of_lt hlt]
  · obtain ⟨hlt, rfl⟩ := List.getElem?_eq_some_iff.mp hw
    have hget := hdata i (.float, msg.data[i]) (by
      rw [List.getElem?_take, if_pos hlt, List.getElem?_zip_eq_some]
      exact ⟨hfloats i hlt, hw⟩)
    rw [Nat.zero_add] at hget
    exact (Option.some.inj hget).symm

theorem scanMsgs_written (ts : Timestamps τ) {msgs : List (WebMsg τ)} {rxs : List Receiver}
    (hmsgs : ∀ msg ∈ msgs, Plain msg ∧ Floats fmt msg.data.length) (hcnt : msgs.length ≤ rxs.length)
    (hcap : ∀ (k : Nat) (msg : WebMsg τ) (rx : Receiver),
      msgs[k]? = some msg → rxs[k]? = some rx → msg.data.length ≤ rx.capacity) :
    fmt.Fits (msgs.map (written ts)) rxs ∧
      (fmt.scanMsgs (msgs.map (written ts)) rxs).result =
        .ok (msgs.length, (fmt.frames (msgs.map (written ts))).length) ∧
      ∀ (k : Nat) (msg : WebMsg τ), msgs[k]? = some msg → ∃ rx : Receiver,
        (fmt.scanMsgs (msgs.map (written ts)) rxs).smps[k]? = some rx ∧ Received fmt msg rx.payload := by
  induction msgs generalizing rxs with
  | nil =>
    cases rxs with
    | nil => exact ⟨trivial, rfl, by simp⟩
    | cons rx rxs => exact ⟨trivial, rfl, by simp⟩
  | cons msg msgs ih =>
    cases rxs with
    | nil => simp at hcnt
    | cons rx rxs =>
      rw [List.forall_mem_cons] at hmsgs
      obtain ⟨⟨hmsg, hfloats⟩, hmsgs⟩ := hmsgs
      obtain ⟨hok, hholds, hreceived⟩ :=
        decode_written ts hmsg (hcap 0 msg rx rfl rfl) hfloats
      have hvalid := written_valid ts hmsg
      have hknown := (fmt.decode_spec hvalid rx).1.mp hok
      obtain ⟨hfits, hresult, hsamples⟩ := ih hmsgs (by simpa using hcnt)
        (fun k msg rx hmsg hrx => hcap (k + 1) msg rx hmsg hrx)
      rw [List.map_cons, scanMsgs_known fmt hvalid hknown]
      unfold Scanned.cons
      refine ⟨fun _ => ⟨hholds, hfits⟩, ?_, fun k msg' hk => ?_⟩
      · rw [hresult, frames_cons, List.length_append, bytes_length]
        rfl
      · cases k with
        | zero =>
          cases hk
          exact ⟨_, rfl, hreceived⟩
        | succ k => exact hsamples k msg' hk

/-! ## Agreement -/

theorem client_reads (hweb : fmt.web = true) (hhost : fmt.host = .little) {smps : List Payload}
    (hsmps : ∀ smp ∈ smps, Sendable fmt smp) (len : Nat) :
    ∃ blob, ∃ n ≤ smps.length, fmt.sprint len smps = .ok (blob, n) ∧
      ((smps.map fun smp => msgLen smp.length).sum ≤ len → n = smps.length) ∧
      fromArrayBufferVector ts .little blob = some ((smps.take n).map (expected ts fmt)) := by
  obtain ⟨n, hn, hprint, hall⟩ := sprintLoop_floats hweb hsmps len
  rw [hhost] at hprint
  have htaken : ∀ smp ∈ smps.take n, Sendable fmt smp := fun smp h => hsmps smp (List.mem_of_mem_take h)
  have hvalid : ∀ m ∈ (smps.take n).map (sent fmt), m.Valid := by
    rw [List.forall_mem_map]
    exact fun smp h => sent_valid (htaken smp h)
  refine ⟨_, n, hn, hprint, hall, ?_⟩
  rw [fromArrayBufferVector_messages hvalid, List.map_map]
  congr 1
  apply List.map_congr_left
  exact fun smp h => view_sent (htaken smp h)

theorem client_writes {msgs : List (WebMsg τ)} (hmsgs : ∀ msg ∈ msgs, Plain msg) :
    List.Forall₂ (fun msg blob => toArrayBuffer ts .little msg = some blob) msgs
      (msgs.map fun msg => (written ts msg).bytes .little) := by
  induction msgs with
  | nil => exact .nil
  | cons msg msgs ih =>
    rw [List.forall_mem_cons] at hmsgs
    exact .cons (toArrayBuffer_plain hmsgs.1) (ih hmsgs.2)

/-- The host and the client agree. What `sprint` writes, the client reads as one message for each
sample, with the version, the type, the length, the sequence number, the two words of the timestamp
and the values of the sample. What the client writes, `sscan` accepts, and the samples have the
lengths, the sequence numbers and the values of the messages. -/
theorem web_format_agrees (fmt : VillasBinaryFormat) (ts : Timestamps τ) (hweb : fmt.web = true) (hhost : fmt.host = .little) :
    (∀ (len : Nat) (smps : List Payload), (∀ smp ∈ smps, Sendable fmt smp) →
      ∃ blob, ∃ n ≤ smps.length, fmt.sprint len smps = .ok (blob, n) ∧
        ((smps.map fun smp => msgLen smp.length).sum ≤ len → n = smps.length) ∧
        fromArrayBufferVector ts .little blob = some ((smps.take n).map (expected ts fmt))) ∧
    ∀ (msgs : List (WebMsg τ)) (rxs : List Receiver),
      (∀ msg ∈ msgs, Plain msg ∧ Floats fmt msg.data.length) → msgs.length ≤ rxs.length →
      (∀ (k : Nat) (msg : WebMsg τ) (rx : Receiver),
        msgs[k]? = some msg → rxs[k]? = some rx → msg.data.length ≤ rx.capacity) →
      ∃ blobs, List.Forall₂ (fun msg blob => toArrayBuffer ts .little msg = some blob) msgs blobs ∧
        (fmt.sscan blobs.flatten rxs).result = .ok (msgs.length, blobs.flatten.length) ∧
        ∀ (k : Nat) (msg : WebMsg τ), msgs[k]? = some msg → ∃ rx : Receiver,
          (fmt.sscan blobs.flatten rxs).smps[k]? = some rx ∧ Received fmt msg rx.payload := by
  refine ⟨fun len smps hsmps => client_reads hweb hhost hsmps len, fun msgs rxs hmsgs hcnt hcap => ?_⟩
  have hframes : (msgs.map fun msg => (written ts msg).bytes .little).flatten =
      fmt.frames (msgs.map (written ts)) := by
    unfold frames wire
    rw [if_pos hweb, hhost, List.flatMap_map]
    rfl
  have hvalid : ∀ m ∈ msgs.map (written ts), m.Valid := by
    rw [List.forall_mem_map]
    exact fun msg hmsg => written_valid ts (hmsgs msg hmsg).1
  obtain ⟨hfits, hresult, hsamples⟩ := scanMsgs_written ts hmsgs hcnt hcap
  refine ⟨_, client_writes fun msg hmsg => (hmsgs msg hmsg).1, ?_⟩
  rw [hframes, sscan_frames, sscanLoop_fits fmt hvalid hfits]
  exact ⟨hresult, hsamples⟩

/-- Timestamps of whole milliseconds. -/
def millis : Timestamps Nat where
  join sec nsec := sec * 1000 + nsec / 1000000
  sec timestamp := BitVec.ofNat 32 (timestamp / 1000)
  nsec timestamp := BitVec.ofNat 32 (timestamp % 1000 * 1000000)

def webExample : VillasBinaryFormat :=
  { host := .little, conv := ⟨fun v => v.setWidth 32, fun w => w.setWidth 64⟩, web := true
    signals := 0, lists := fun _ => [.float] }

theorem webExample_floats : Floats webExample 1 := by
  intro i hi
  obtain rfl : i = 0 := Nat.lt_one_iff.mp hi
  rfl

theorem web_format_agrees_one :
    (∃ blob, webExample.sprint 20 [exampleOut 7 9] = .ok (blob, 1) ∧
      fromArrayBufferVector millis .little blob = some [⟨2, 0, 1, 7, 5000, [9]⟩]) ∧
    ∃ blob, toArrayBuffer millis .little ⟨2, 0, 1, 7, 5000, [9]⟩ = some blob ∧
      (webExample.sscan blob [exampleReceiver]).result = .ok (1, blob.length) := by
  obtain ⟨hsend, hreceive⟩ := web_format_agrees webExample millis rfl rfl
  constructor
  · have hsmp : Sendable webExample (exampleOut 7 9) :=
      ⟨by decide, by decide, by decide, by decide, webExample_floats⟩
    obtain ⟨blob, n, -, hprint, hall, hread⟩ := hsend 20 [exampleOut 7 9] (by simpa using hsmp)
    obtain rfl : n = 1 := hall (by decide)
    exact ⟨blob, hprint, hread⟩
  · have hmsg : Plain (⟨2, 0, 1, 7, 5000, [9]⟩ : WebMsg Nat) :=
      ⟨rfl, rfl, by decide, rfl, by decide⟩
    obtain ⟨blobs, hblobs, hresult, -⟩ := hreceive [⟨2, 0, 1, 7, 5000, [9]⟩] [exampleReceiver]
      (by simpa using ⟨hmsg, webExample_floats⟩) (Nat.le_refl 1)
      (fun k msg rx hk hrx => by
        cases k with
        | zero =>
          cases hk
          cases hrx
          exact Nat.le_refl 1
        | succ k => simp at hk)
    obtain _ | ⟨hblob, hnil⟩ := hblobs
    cases hnil
    rw [List.flatten_singleton] at hresult
    exact ⟨_, hblob, hresult⟩

end VillasNode.WebClient
