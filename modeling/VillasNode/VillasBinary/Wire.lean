import VillasNode.VillasBinary.Model

/-!
# Messages on the wire

A message is read from the front of a buffer as it was stored, whatever follows
it and whatever the byte orders of the host and of the wire are.
-/

namespace VillasNode

open ByteOrder

/-! ## Bytes of a message -/

/-- A message that `msg_verify` accepts and whose header tells the number of its values. -/
structure Msg.Valid (m : Msg) : Prop where
  version : m.version = msgVersion
  type : m.type = msgTypeData
  reserved1 : m.reserved1 = 0
  length : m.length.toNat = m.data.length

theorem Msg.Valid.verify {m : Msg} (hm : m.Valid) : msgVerify m = 0 := by
  unfold msgVerify
  rw [hm.version, hm.type, hm.reserved1]
  rfl

theorem bit_fields : ∀ (v : BitVec 4) (t r : BitVec 2),
    (v ++ t ++ r : BitVec 8).extractLsb' 4 4 = v ∧ (v ++ t ++ r : BitVec 8).extractLsb' 2 2 = t ∧
      (v ++ t ++ r : BitVec 8).extractLsb' 0 2 = r := by
  decide

@[simp]
theorem bytes_length (e : Endian) (m : Msg) : (m.bytes e).length = msgLen m.data.length := by
  simp only [Msg.bytes, List.length_append, List.length_cons, List.length_nil, store_length,
    storeAll_length, msgLen]
  omega

theorem load_bytes (e e' : Endian) (values : Nat) (m : Msg) (rest : List Byte) :
    Msg.load e values (m.bytes e' ++ rest) =
      { m with
        length := ByteOrder.load e 16 (store e' 16 m.length)
        sequence := ByteOrder.load e 32 (store e' 32 m.sequence)
        sec := ByteOrder.load e 32 (store e' 32 m.sec)
        nsec := ByteOrder.load e 32 (store e' 32 m.nsec)
        data := loadAll e 32 values (storeAll e' 32 m.data ++ rest) } := by
  obtain ⟨v, t, r, id, length, sequence, sec, nsec, data⟩ := m
  obtain ⟨hv, ht, hr⟩ := bit_fields v t r
  generalize hbs : Msg.bytes e' ⟨v, t, r, id, length, sequence, sec, nsec, data⟩ ++ rest = bs
  have h0 : bs = (v ++ t ++ r) :: id :: (store e' 16 length ++ (store e' 32 sequence ++
      (store e' 32 sec ++ (store e' 32 nsec ++ (storeAll e' 32 data ++ rest))))) := by
    rw [← hbs]
    simp [Msg.bytes]
  have hlength : (store e' 16 length).length = 2 := store_length ..
  have hword : ∀ x, (store e' 32 x).length = 4 := store_length e' 32
  -- The fields follow each other.
  have h2 : bs.drop 2 = store e' 16 length ++ (store e' 32 sequence ++ (store e' 32 sec ++
      (store e' 32 nsec ++ (storeAll e' 32 data ++ rest)))) := by
    rw [h0]
    rfl
  have h4 : bs.drop 4 = store e' 32 sequence ++ (store e' 32 sec ++ (store e' 32 nsec ++
      (storeAll e' 32 data ++ rest))) := by
    rw [show 4 = 2 + 2 from rfl, ← List.drop_drop, h2, List.drop_left' hlength]
  have h8 : bs.drop 8 = store e' 32 sec ++ (store e' 32 nsec ++ (storeAll e' 32 data ++ rest)) := by
    rw [show 8 = 4 + 4 from rfl, ← List.drop_drop, h4, List.drop_left' (hword _)]
  have h12 : bs.drop 12 = store e' 32 nsec ++ (storeAll e' 32 data ++ rest) := by
    rw [show 12 = 8 + 4 from rfl, ← List.drop_drop, h8, List.drop_left' (hword _)]
  have h16 : bs.drop 16 = storeAll e' 32 data ++ rest := by
    rw [show 16 = 12 + 4 from rfl, ← List.drop_drop, h12, List.drop_left' (hword _)]
  unfold Msg.load
  rw [h2, h4, h8, h12, h16, List.take_left' hlength, List.take_left' (hword sequence),
    List.take_left' (hword sec), List.take_left' (hword nsec), h0]
  simp only [List.getD_cons_zero, List.getD_cons_succ, hv, ht, hr]

theorem load_host (e : Endian) (m : Msg) (rest : List Byte) :
    Msg.load e m.data.length (m.bytes e ++ rest) = m := by
  rw [load_bytes, loadAll_storeAll, load_store (by decide), load_store (by decide),
    load_store (by decide), load_store (by decide)]
  simp only [load_store (show 8 ∣ 32 by decide), List.map_id']

theorem convertData_all (f : BitVec 32 → BitVec 32) (data : List (BitVec 32)) :
    convertData f data.length data = data.map f := by
  unfold convertData
  rw [List.take_length, List.drop_length, List.append_nil]

theorem load_network {m : Msg} (hm : m.length.toNat = m.data.length) (e : Endian) (rest : List Byte) :
    msgNtoh e (Msg.load e m.data.length (m.bytes .big ++ rest)) = m := by
  rw [load_bytes, loadAll_storeAll]
  unfold msgNtoh msgHdrNtoh
  simp only [ntoh_load (show 8 ∣ 16 by decide), ntoh_load (show 8 ∣ 32 by decide)]
  have hlen : m.length.toNat = (m.data.map fun x => ByteOrder.load e 32 (store .big 32 x)).length := by
    rw [List.length_map, hm]
  rw [hlen, convertData_all, List.map_map]
  simp [Function.comp_def, ntoh_load (show 8 ∣ 32 by decide)]

theorem hton_bytes {m : Msg} (hm : m.length.toNat = m.data.length) (e : Endian) :
    (msgHton e m).bytes e = m.bytes .big := by
  unfold msgHton msgHdrHton Msg.bytes
  simp only [hm, convertData_all, store_hton (show 8 ∣ 16 by decide),
    store_hton (show 8 ∣ 32 by decide), storeAll_hton (show 8 ∣ 32 by decide)]

/-! ## One message of a buffer -/

namespace VillasBinaryFormat

variable (fmt : VillasBinaryFormat)

def wire : Endian := if fmt.web then fmt.host else .big

theorem wire_length (m : Msg) (rest : List Byte) :
    (if fmt.web then (Msg.load fmt.host 0 (m.bytes fmt.wire ++ rest)).length
      else ntoh fmt.host 16 (Msg.load fmt.host 0 (m.bytes fmt.wire ++ rest)).length) = m.length := by
  rw [load_bytes]
  unfold wire
  dsimp only
  split
  · exact load_store (by decide) _
  · exact ntoh_load (by decide) _

theorem wire_load {m : Msg} (hm : m.length.toNat = m.data.length) (rest : List Byte) :
    (if fmt.web then Msg.load fmt.host m.data.length (m.bytes fmt.wire ++ rest)
      else msgNtoh fmt.host (Msg.load fmt.host m.data.length (m.bytes fmt.wire ++ rest))) = m := by
  unfold wire
  split
  · exact load_host fmt.host m rest
  · exact load_network hm fmt.host rest

theorem wire_bytes {m : Msg} (hm : m.length.toNat = m.data.length) :
    (if fmt.web then m else msgHton fmt.host m).bytes fmt.host = m.bytes fmt.wire := by
  unfold wire
  split
  · rfl
  · exact hton_bytes hm fmt.host

def receive (smp : Receiver) : Receiver :=
  { smp with payload := { smp.payload with signals := fmt.signals } }

def decode (m : Msg) (smp : Receiver) : Payload × Int :=
  msgToSample fmt.conv (fmt.lists fmt.signals) m smp.capacity (fmt.receive smp).payload

theorem sscanLoop_message {m : Msg} (hm : m.Valid) (rest : List Byte) (smp : Receiver)
    (smps : List Receiver) :
    fmt.sscanLoop (m.bytes fmt.wire ++ rest) (smp :: smps) =
      let payload := (fmt.decode m smp).1
      if (fmt.decode m smp).2 ≠ 0 then
        ⟨{ smp with payload } :: smps, .error (fmt.decode m smp).2⟩
      else
        (fmt.sscanLoop ((m.bytes fmt.host ++ rest).drop (msgLen payload.length)) smps).cons
          { smp with payload } (msgLen payload.length) := by
  have hlen : (m.bytes fmt.wire ++ rest).length = msgLen m.data.length + rest.length := by
    rw [List.length_append, bytes_length]
  have hvalues : (if fmt.web then (Msg.load fmt.host 0 (m.bytes fmt.wire ++ rest)).length
      else ntoh fmt.host 16 (Msg.load fmt.host 0 (m.bytes fmt.wire ++ rest)).length).toNat =
        m.data.length := by
    rw [wire_length, hm.length]
  have hdrop : (m.bytes fmt.wire ++ rest).drop (msgLen m.data.length) = rest :=
    List.drop_left' (bytes_length ..)
  have hload := fmt.wire_load hm.length rest
  generalize hbuf : m.bytes fmt.wire ++ rest = buf at *
  have hne : buf ≠ [] := by
    rintro rfl
    simp only [List.length_nil, msgLen] at hlen
    omega
  have hheader : ¬ buf.length < msgLen 0 := by
    unfold msgLen at *
    omega
  have hwhole : ¬ buf.length < msgLen m.data.length := by omega
  rw [sscanLoop]
  simp only [if_neg hne, if_neg hheader, hvalues, if_neg hwhole, hload, hdrop]
  rfl

end VillasBinaryFormat

end VillasNode
