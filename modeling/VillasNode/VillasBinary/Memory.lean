import VillasNode.Lib.ByteMemory
import VillasNode.VillasBinary.Framing

/-!
# The buffer of `sscan`

`VillasBinaryFormat::sscan` on a buffer whose bytes it reads and converts in
place, access by access. It agrees with the scan of a list of bytes, and no
access is outside of the buffer or of the values of a sample.
-/

namespace VillasNode

open ByteOrder ByteMemory

/-! ## The conversions -/

/-- `f = ntohl(f)` for a field at `p`. -/
def convertAt (e : Endian) (w p : Nat) (mem : Memory) : Memory :=
  let (mem, x) := mem.load e w p
  mem.store e w p (ntoh e w x)

def msgHdrNtohAt (e : Endian) (ptr : Nat) (mem : Memory) : Memory :=
  let mem := convertAt e 16 (ptr + 2) mem
  let mem := convertAt e 32 (ptr + 4) mem
  let mem := convertAt e 32 (ptr + 8) mem
  convertAt e 32 (ptr + 12) mem

/-- The loop of `msg_ntoh`, which reads `m->length` before each round. `none` when it has not ended
after so many rounds. -/
def ntohLoopAt (e : Endian) (ptr : Nat) : Nat → Nat → Memory → Option Memory
  | 0, _, _ => none
  | rounds + 1, i, mem =>
    let (mem, length) := mem.load e 16 (ptr + 2)
    if i < length.toNat then ntohLoopAt e ptr rounds (i + 1) (convertAt e 32 (ptr + 16 + 4 * i) mem)
    else some mem

def msgNtohAt (e : Endian) (ptr : Nat) (mem : Memory) : Option Memory :=
  ntohLoopAt e ptr (2 ^ 16) 0 (msgHdrNtohAt e ptr mem)

/-! ## Samples -/

/-- The three bit fields are in the first byte. -/
def msgVerifyAt (e : Endian) (ptr : Nat) (mem : Memory) : Memory × Int :=
  let (mem, first) := mem.load e 8 ptr
  (mem,
    if first.extractLsb' 4 4 ≠ msgVersion then -1
    else if first.extractLsb' 2 2 ≠ msgTypeData then -2
    else if first.extractLsb' 0 2 ≠ 0 then -3
    else 0)

/-- A sample with the indices of the values that were written. -/
structure Target where
  payload : Payload
  written : List Nat

def Target.setData (smp : Target) (i : Nat) (v : Value) : Target :=
  ⟨smp.payload.setData i v, smp.written ++ [i]⟩

/-- The loop of `msg_to_sample`, for `n` values from `i` on. -/
def valuesLoopAt (e : Endian) (conv : FloatConv) (sigs : List SignalType) (ptr : Nat) :
    Nat → Nat → Memory → Target → Memory × Target × Bool
  | 0, _, mem, smp => (mem, smp, true)
  | n + 1, i, mem, smp =>
    match sigs[i]? with
    | some .float =>
      let (mem, w) := mem.load e 32 (ptr + 16 + 4 * i)
      valuesLoopAt e conv sigs ptr n (i + 1) mem (smp.setData i (conv.widen w))
    | some .integer =>
      let (mem, w) := mem.load e 32 (ptr + 16 + 4 * i)
      valuesLoopAt e conv sigs ptr n (i + 1) mem (smp.setData i (w.setWidth 64))
    | _ => (mem, smp, false)

def msgToSampleAt (e : Endian) (conv : FloatConv) (sigs : List SignalType) (ptr capacity : Nat)
    (mem : Memory) (smp : Target) : Memory × Target × Int :=
  let (mem, ret) := msgVerifyAt e ptr mem
  if ret ≠ 0 then (mem, smp, ret)
  else
    let (mem, length) := mem.load e 16 (ptr + 2)
    let len := min length.toNat capacity
    let n := min len sigs.length
    match valuesLoopAt e conv sigs ptr n 0 mem smp with
    | (mem, smp, false) => (mem, smp, -1)
    | (mem, smp, true) =>
      let (mem, sequence) := mem.load e 32 (ptr + 4)
      let (mem, sec) := mem.load e 32 (ptr + 8)
      let (mem, nsec) := mem.load e 32 (ptr + 12)
      let flags := SampleFlags.hasTsOrigin ||| SampleFlags.hasSequence ||| SampleFlags.hasData
      (mem, { smp with payload := { smp.payload with
        flags, length := n, sequence := sequence.setWidth 64
        origin := ⟨sec.setWidth 64, nsec.setWidth 64⟩ } }, 0)

/-! ## The scan -/

/-- What the scan leaves. `written` has the indices of the values that were written, sample by
sample. -/
structure ScannedAt where
  mem : Memory
  smps : List Receiver
  written : List (List Nat)
  result : Except Int (Nat × Nat)

def ScannedAt.cons (smp : Receiver) (written : List Nat) (s : ScannedAt) : ScannedAt :=
  { s with smps := smp :: s.smps, written := written :: s.written }

namespace VillasBinaryFormat

/-- The loop of `sscan` with `i` samples read up to `ptr`, over the samples that are left. -/
def sscanLoopAt (fmt : VillasBinaryFormat) (len i ptr : Nat) (mem : Memory) :
    List Receiver → Option ScannedAt
  | [] => some ⟨mem, [], [], .ok (i, ptr)⟩
  | smp :: smps =>
    let smp := { smp with payload := { smp.payload with signals := fmt.signals } }
    if ptr = len then some ⟨mem, smp :: smps, [], .ok (i, ptr)⟩
    else if len < ptr + msgLen 0 then some ⟨mem, smp :: smps, [], .error (-2)⟩
    else
      let (mem, length) := mem.load fmt.host 16 (ptr + 2)
      let values := (if fmt.web then length else ntoh fmt.host 16 length).toNat
      if len < ptr + msgLen values then some ⟨mem, smp :: smps, [], .error (-3)⟩
      else
        (if fmt.web then some mem else msgNtohAt fmt.host ptr mem).bind fun mem =>
          match msgToSampleAt fmt.host fmt.conv (fmt.lists fmt.signals) ptr smp.capacity mem
            ⟨smp.payload, []⟩ with
          | (mem, target, ret) =>
            let smp := { smp with payload := target.payload }
            if ret ≠ 0 then some ⟨mem, smp :: smps, [target.written], .error ret⟩
            else
              (sscanLoopAt fmt len (i + 1) (ptr + msgLen smp.payload.length) mem smps).map
                (ScannedAt.cons smp target.written)

def sscanAt (fmt : VillasBinaryFormat) (buf : List Byte) (smps : List Receiver) : Option ScannedAt :=
  if buf.length % 4 ≠ 0 then some ⟨⟨buf, []⟩, smps, [], .error (-1)⟩
  else fmt.sscanLoopAt buf.length 0 0 ⟨buf, []⟩ smps

end VillasBinaryFormat

/-! ## A message in memory -/

theorem bit_fields_join : ∀ b : BitVec 8,
    (b.extractLsb' 4 4 ++ b.extractLsb' 2 2 ++ b.extractLsb' 0 2 : BitVec 8) = b := by
  decide

theorem storeAll_loadAll (e : Endian) (n : Nat) (bs : List Byte) (hbs : 4 * n ≤ bs.length) :
    storeAll e 32 (loadAll e 32 n bs) = bs.take (4 * n) := by
  induction n generalizing bs with
  | zero => rfl
  | succ n ih =>
    have hword : (bs.take 4).length = 32 / 8 := by
      rw [List.length_take]
      omega
    rw [loadAll, storeAll_cons, store_load (by decide) hword, ih _ (by rw [List.length_drop]; omega),
      Nat.mul_succ, Nat.add_comm, List.take_add]

theorem bytes_load (e : Endian) (values : Nat) {bs : List Byte} (hbs : msgLen values ≤ bs.length) :
    (Msg.load e values bs).bytes e = bs.take (msgLen values) := by
  unfold msgLen at *
  have hfield : ∀ k w, k + w / 8 ≤ 16 → 8 ∣ w →
      store e w (ByteOrder.load e w ((bs.drop k).take (w / 8))) = (bs.drop k).take (w / 8) := by
    intro k w hk hw
    apply store_load hw
    rw [List.length_take, List.length_drop]
    omega
  have hfirst : [bs.getD 0 0, bs.getD 1 0] = bs.take 2 := by
    match bs, hbs with
    | [], hbs => simp at hbs
    | [b], hbs =>
      rw [List.length_singleton] at hbs
      omega
    | b₀ :: b₁ :: bs, _ => rfl
  have hjoin : bs.take (16 + 4 * values) = bs.take 2 ++ ((bs.drop 2).take 2 ++ ((bs.drop 4).take 4 ++
      ((bs.drop 8).take 4 ++ ((bs.drop 12).take 4 ++ (bs.drop 16).take (4 * values))))) := by
    rw [show 16 + 4 * values = 2 + (2 + (4 + (4 + (4 + 4 * values)))) by omega]
    simp only [List.take_add, List.drop_drop]
  have hdata := storeAll_loadAll e values (bs.drop 16) (by rw [List.length_drop]; omega)
  unfold Msg.load Msg.bytes
  rw [bit_fields_join, hjoin, hdata, hfirst]
  rw [hfield 2 16 (by decide) (by decide), hfield 4 32 (by decide) (by decide),
    hfield 8 32 (by decide) (by decide), hfield 12 32 (by decide) (by decide)]

/-- A field at the offset `off` of a message, and the message with another value of it. -/
def FieldAt (e : Endian) (m : Msg) (off w : Nat) (x : BitVec w) (set : BitVec w → Msg) : Prop :=
  ∃ a c, a.length = off ∧ m.bytes e = a ++ (store e w x ++ c) ∧
    ∀ y, (set y).bytes e = a ++ (store e w y ++ c)

theorem length_at (e : Endian) (m : Msg) :
    FieldAt e m 2 16 m.length fun length => { m with length } := by
  refine ⟨[m.version ++ m.type ++ m.reserved1, m.id], _, rfl, rfl, fun y => rfl⟩

theorem sequence_at (e : Endian) (m : Msg) :
    FieldAt e m 4 32 m.sequence fun sequence => { m with sequence } := by
  refine ⟨[m.version ++ m.type ++ m.reserved1, m.id] ++ store e 16 m.length,
    store e 32 m.sec ++ (store e 32 m.nsec ++ storeAll e 32 m.data), ?_, ?_, fun y => ?_⟩
  · rw [List.length_append, store_length]
    rfl
  · rw [List.append_assoc]
    rfl
  · rw [List.append_assoc]
    rfl

theorem sec_at (e : Endian) (m : Msg) : FieldAt e m 8 32 m.sec fun sec => { m with sec } := by
  refine ⟨[m.version ++ m.type ++ m.reserved1, m.id] ++ (store e 16 m.length ++ store e 32 m.sequence),
    store e 32 m.nsec ++ storeAll e 32 m.data, ?_, ?_, fun y => ?_⟩
  · simp only [List.length_append, store_length]
    rfl
  · simp only [List.append_assoc]
    rfl
  · simp only [List.append_assoc]
    rfl

theorem nsec_at (e : Endian) (m : Msg) : FieldAt e m 12 32 m.nsec fun nsec => { m with nsec } := by
  refine ⟨[m.version ++ m.type ++ m.reserved1, m.id] ++ (store e 16 m.length ++ (store e 32 m.sequence ++
    store e 32 m.sec)), storeAll e 32 m.data, ?_, ?_, fun y => ?_⟩
  · simp only [List.length_append, store_length]
    rfl
  · simp only [List.append_assoc]
    rfl
  · simp only [List.append_assoc]
    rfl

theorem storeAll_append (e : Endian) (xs ys : List (BitVec 32)) :
    storeAll e 32 (xs ++ ys) = storeAll e 32 xs ++ storeAll e 32 ys := List.flatMap_append

theorem data_at (e : Endian) (m : Msg) {i : Nat} {x : BitVec 32} (hi : m.data[i]? = some x) :
    FieldAt e m (16 + 4 * i) 32 x fun y => { m with data := m.data.set i y } := by
  obtain ⟨hlt, rfl⟩ := List.getElem?_eq_some_iff.mp hi
  have hsplit : storeAll e 32 m.data = storeAll e 32 (m.data.take i) ++
      (store e 32 m.data[i] ++ storeAll e 32 (m.data.drop (i + 1))) := by
    rw [← storeAll_cons, ← List.drop_eq_getElem_cons hlt, ← storeAll_append, List.take_append_drop]
  have hset : ∀ y, storeAll e 32 (m.data.set i y) = storeAll e 32 (m.data.take i) ++
      (store e 32 y ++ storeAll e 32 (m.data.drop (i + 1))) := by
    intro y
    rw [List.set_eq_take_append_cons_drop, if_pos hlt, storeAll_append, storeAll_cons]
  refine ⟨[m.version ++ m.type ++ m.reserved1, m.id] ++ (store e 16 m.length ++ (store e 32 m.sequence ++
    (store e 32 m.sec ++ (store e 32 m.nsec ++ storeAll e 32 (m.data.take i))))),
    storeAll e 32 (m.data.drop (i + 1)), ?_, ?_, fun y => ?_⟩
  · simp only [List.length_append, store_length, storeAll_length, List.length_take]
    rw [Nat.min_eq_left (Nat.le_of_lt hlt)]
    simp only [List.length_cons, List.length_nil]
    omega
  · unfold Msg.bytes
    rw [hsplit]
    simp only [List.append_assoc]
  · unfold Msg.bytes
    rw [hset]
    simp only [List.append_assoc]

/-- The memory holds a message between these bytes, and no access was outside of it. -/
structure Holding (e : Endian) (pre post : List Byte) (m : Msg) (mem : Memory) : Prop where
  bytes : mem.bytes = pre ++ (m.bytes e ++ post)
  safe : mem.Safe

section
variable {e : Endian} {pre post : List Byte} {m : Msg} {mem : Memory} {off w ptr : Nat} {x : BitVec w}
  {set : BitVec w → Msg}

theorem Holding.load (h : Holding e pre post m mem) (hw : 8 ∣ w) (hf : FieldAt e m off w x set)
    (hptr : pre.length + off = ptr) :
    Holding e pre post m (mem.load e w ptr).1 ∧ (mem.load e w ptr).2 = x := by
  obtain ⟨a, c, ha, hbytes, -⟩ := hf
  have hm : mem.bytes = (pre ++ a) ++ (store e w x ++ (c ++ post)) := by
    rw [h.bytes, hbytes]
    simp only [List.append_assoc]
  have hp : (pre ++ a).length = ptr := by rw [List.length_append, ha, hptr]
  have hle : ptr + w / 8 ≤ mem.bytes.length := by
    rw [hm, List.length_append, hp, List.length_append, store_length]
    omega
  exact ⟨⟨h.bytes, load_safe h.safe hle⟩, load_middle hw hm hp⟩

theorem Holding.convert (h : Holding e pre post m mem) (hw : 8 ∣ w) (hf : FieldAt e m off w x set)
    (hptr : pre.length + off = ptr) :
    Holding e pre post (set (ntoh e w x)) (convertAt e w ptr mem) := by
  obtain ⟨hload, hx⟩ := h.load hw hf hptr
  obtain ⟨a, c, ha, hbytes, hset⟩ := hf
  have hm : (mem.load e w ptr).1.bytes = (pre ++ a) ++ (store e w x ++ (c ++ post)) := by
    rw [hload.bytes, hbytes]
    simp only [List.append_assoc]
  have hp : (pre ++ a).length = ptr := by rw [List.length_append, ha, hptr]
  have hle : ptr + w / 8 ≤ (mem.load e w ptr).1.bytes.length := by
    rw [hm, List.length_append, hp, List.length_append, store_length]
    omega
  have hstore := store_middle (y := ntoh e w x) hm hp
  unfold convertAt
  dsimp only
  rw [hx]
  refine ⟨?_, store_safe hload.safe ?_ hle⟩
  · rw [hstore, hset]
    simp only [List.append_assoc]
  · rw [hstore, hm]
    simp only [List.length_append, store_length]

theorem Holding.hdrNtoh (h : Holding e pre post m mem) :
    Holding e pre post (msgHdrNtoh e m) (msgHdrNtohAt e pre.length mem) := by
  have h := h.convert (by decide) (length_at e m) rfl
  have h := h.convert (by decide) (sequence_at e _) rfl
  have h := h.convert (by decide) (sec_at e _) rfl
  exact h.convert (by decide) (nsec_at e _) rfl

theorem Holding.ntohLoop (rounds i : Nat) (h : Holding e pre post m mem)
    (hlen : m.length.toNat = m.data.length) (hi : i ≤ m.data.length)
    (hrounds : m.data.length < i + rounds) :
    ∃ mem', ntohLoopAt e pre.length rounds i mem = some mem' ∧
      Holding e pre post { m with data := m.data.take i ++ (m.data.drop i).map (ntoh e 32) } mem' := by
  induction rounds generalizing i m mem with
  | zero => omega
  | succ rounds ih =>
    obtain ⟨hload, hlength⟩ := h.load (by decide) (length_at e m) rfl
    unfold ntohLoopAt
    dsimp only
    rw [hlength, hlen]
    split
    · rename_i hlt
      have hget : m.data[i]? = some m.data[i] := List.getElem?_eq_getElem hlt
      have hconv := hload.convert (by decide) (data_at e m hget) (Nat.add_assoc ..).symm
      obtain ⟨mem', hmem', hdone⟩ := ih (i + 1) hconv (by rw [List.length_set]; exact hlen) (by rw [List.length_set]; exact hlt)
        (by rw [List.length_set]; omega)
      refine ⟨mem', hmem', ?_⟩
      have hdata : (m.data.set i (ntoh e 32 m.data[i])).take (i + 1) ++
          ((m.data.set i (ntoh e 32 m.data[i])).drop (i + 1)).map (ntoh e 32) =
            m.data.take i ++ (m.data.drop i).map (ntoh e 32) := by
        have hpre : (m.data.take i ++ [ByteOrder.ntoh e 32 m.data[i]]).length = i + 1 := by
          rw [List.length_append, List.length_take, Nat.min_eq_left (Nat.le_of_lt hlt),
            List.length_singleton]
        rw [List.set_eq_take_append_cons_drop, if_pos hlt, List.append_cons, List.take_left' hpre,
          List.drop_left' hpre, List.drop_eq_getElem_cons hlt, List.map_cons, List.append_assoc]
        rfl
      rw [hdata] at hdone
      exact hdone
    · rename_i hge
      have hall : i = m.data.length := by omega
      refine ⟨_, rfl, ?_⟩
      rw [hall, List.take_length, List.drop_length, List.map_nil, List.append_nil]
      exact hload

theorem Holding.ntoh (h : Holding e pre post m mem)
    (hlen : (ByteOrder.ntoh e 16 m.length).toNat = m.data.length) :
    ∃ mem', msgNtohAt e pre.length mem = some mem' ∧ Holding e pre post (msgNtoh e m) mem' := by
  have hbound := (ByteOrder.ntoh e 16 m.length).isLt
  obtain ⟨mem', hmem', hdone⟩ := h.hdrNtoh.ntohLoop (2 ^ 16) 0 hlen (Nat.zero_le _)
    (by rw [Nat.zero_add]; exact hlen ▸ hbound)
  refine ⟨mem', hmem', ?_⟩
  have hconv : convertData (ByteOrder.ntoh e 32) (ByteOrder.ntoh e 16 m.length).toNat m.data =
      m.data.map (ByteOrder.ntoh e 32) := by
    rw [hlen, convertData_all]
  unfold msgNtoh msgHdrNtoh at *
  dsimp only at *
  rw [hconv]
  simpa using hdone

theorem store_byte (e : Endian) (b : BitVec 8) : store e 8 b = [b] := by
  unfold store
  have hdigit : digits (8 / 8) b.toNat = [b] := by simp [digits]
  rw [hdigit]
  cases e with
  | little => rfl
  | big => rfl

theorem first_at (e : Endian) (m : Msg) : FieldAt e m 0 8 (m.version ++ m.type ++ m.reserved1)
    fun b => { m with version := b.extractLsb' 4 4, type := b.extractLsb' 2 2
                      reserved1 := b.extractLsb' 0 2 } := by
  refine ⟨[], m.id :: (store e 16 m.length ++ (store e 32 m.sequence ++ (store e 32 m.sec ++
    (store e 32 m.nsec ++ storeAll e 32 m.data)))), rfl, ?_, fun b => ?_⟩
  · rw [store_byte]
    rfl
  · rw [store_byte]
    unfold Msg.bytes
    rw [bit_fields_join]
    rfl

theorem Holding.verify (h : Holding e pre post m mem) :
    Holding e pre post m (msgVerifyAt e pre.length mem).1 ∧
      (msgVerifyAt e pre.length mem).2 = msgVerify m := by
  obtain ⟨hload, hfirst⟩ := h.load (by decide) (first_at e m) rfl
  obtain ⟨hv, ht, hr⟩ := bit_fields m.version m.type m.reserved1
  refine ⟨hload, ?_⟩
  unfold msgVerifyAt msgVerify
  dsimp only
  rw [Nat.add_zero] at hfirst
  rw [hfirst, hv, ht, hr]

/-- The values that are read are those of the message, and only these are written. -/
structure ReadsValues (e : Endian) (pre post : List Byte) (m : Msg) (smp : Target) (n : Nat)
    (values : Payload × Bool) (out : Memory × Target × Bool) : Prop where
  holding : Holding e pre post m out.1
  values : (out.2.1.payload, out.2.2) = values
  written : ∀ k ∈ out.2.1.written, k ∈ smp.written ∨ k < n

theorem Holding.valuesLoop (conv : FloatConv) {sigs : List SignalType} {n : Nat} (i : Nat) (smp : Target)
    (h : Holding e pre post m mem) (hsigs : i + n ≤ sigs.length) (hdata : i + n ≤ m.data.length) :
    ReadsValues e pre post m smp (i + n)
      (readValues conv i (((sigs.zip m.data).drop i).take n) smp.payload)
      (valuesLoopAt e conv sigs pre.length n i mem smp) := by
  induction n generalizing i mem smp with
  | zero => exact ⟨h, rfl, fun k hk => .inl hk⟩
  | succ n ih =>
    have hi : i < sigs.length := by omega
    have hi' : i < m.data.length := by omega
    have hzip : i < (sigs.zip m.data).length := by
      rw [List.length_zip]
      omega
    have hdrop : ((sigs.zip m.data).drop i).take (n + 1) =
        (sigs[i], m.data[i]) :: ((sigs.zip m.data).drop (i + 1)).take n := by
      rw [List.drop_eq_getElem_cons hzip, List.take_succ_cons, List.getElem_zip]
    obtain ⟨hload, hw⟩ := h.load (by decide) (data_at e m (List.getElem?_eq_getElem hi'))
      (Nat.add_assoc ..).symm
    -- A value is written at `i`, and the loop goes on.
    have hnext : ∀ v, ReadsValues e pre post m smp (i + (n + 1))
        (readValues conv (i + 1) (((sigs.zip m.data).drop (i + 1)).take n) (smp.payload.setData i v))
        (valuesLoopAt e conv sigs pre.length n (i + 1) (mem.load e 32 (pre.length + 16 + 4 * i)).1
          (smp.setData i v)) := by
      intro v
      have hrest := ih (i + 1) (smp.setData i v) hload (by omega) (by omega)
      refine ⟨hrest.holding, hrest.values, fun k hk => ?_⟩
      rcases hrest.written k hk with hk | hk
      · rcases List.mem_append.mp hk with hk | hk
        · exact .inl hk
        · rw [List.mem_singleton] at hk
          exact .inr (by omega)
      · exact .inr (by omega)
    rw [hdrop]
    unfold valuesLoopAt readValues
    rw [List.getElem?_eq_getElem hi]
    cases sigs[i] with
    | float =>
      dsimp only [fromWord]
      rw [hw]
      exact hnext _
    | integer =>
      dsimp only [fromWord]
      rw [hw]
      exact hnext _
    | invalid => exact ⟨h, rfl, fun k hk => .inl hk⟩
    | boolean => exact ⟨h, rfl, fun k hk => .inl hk⟩
    | complex => exact ⟨h, rfl, fun k hk => .inl hk⟩

/-- `msg_to_sample` reads the sample of the message, and writes no value behind the capacity. -/
structure ReadsSample (e : Endian) (pre post : List Byte) (m : Msg) (capacity : Nat)
    (sample : Payload × Int) (out : Memory × Target × Int) : Prop where
  holding : Holding e pre post m out.1
  sample : (out.2.1.payload, out.2.2) = sample
  written : ∀ k ∈ out.2.1.written, k < capacity

theorem Holding.toSample (conv : FloatConv) (sigs : List SignalType) (capacity : Nat) (payload : Payload)
    (h : Holding e pre post m mem) (hlen : m.length.toNat = m.data.length) :
    ReadsSample e pre post m capacity (msgToSample conv sigs m capacity payload)
      (msgToSampleAt e conv sigs pre.length capacity mem ⟨payload, []⟩) := by
  obtain ⟨hverify, hret⟩ := h.verify
  unfold msgToSampleAt msgToSample
  dsimp only
  rw [hret]
  split
  · exact ⟨hverify, rfl, fun k hk => (List.not_mem_nil hk).elim⟩
  · obtain ⟨hload, hlength⟩ := hverify.load (by decide) (length_at e m) rfl
    rw [hlength]
    have hsigs : 0 + min (min m.length.toNat capacity) sigs.length ≤ sigs.length := by omega
    have hvalues := hload.valuesLoop conv 0 ⟨payload, []⟩ hsigs (by omega)
    rw [List.drop_zero, Nat.zero_add] at hvalues
    have hsmall : ∀ k ∈ (valuesLoopAt e conv sigs pre.length
        (min (min m.length.toNat capacity) sigs.length) 0
        ((msgVerifyAt e pre.length mem).1.load e 16 (pre.length + 2)).1 ⟨payload, []⟩).2.1.written,
        k < capacity := by
      intro k hk
      rcases hvalues.written k hk with hk | hk
      · exact (List.not_mem_nil hk).elim
      · omega
    rw [← hvalues.values]
    generalize valuesLoopAt e conv sigs pre.length _ 0 _ _ = out at hvalues hsmall
    obtain ⟨mem₁, smp, ok⟩ := out
    cases ok with
    | false => exact ⟨hvalues.holding, rfl, hsmall⟩
    | true =>
      obtain ⟨hload₁, hsequence⟩ := hvalues.holding.load (by decide) (sequence_at e m) rfl
      obtain ⟨hload₂, hsec⟩ := hload₁.load (by decide) (sec_at e m) rfl
      obtain ⟨hload₃, hnsec⟩ := hload₂.load (by decide) (nsec_at e m) rfl
      dsimp only at *
      rw [hsequence, hsec, hnsec]
      exact ⟨hload₃, rfl, hsmall⟩

theorem msgToSample_spec (conv : FloatConv) (sigs : List SignalType) (m : Msg) (capacity : Nat)
    (smp : Payload) : (msgToSample conv sigs m capacity smp).2 < 0 ∨
      (msgToSample conv sigs m capacity smp).2 = 0 ∧
        (msgToSample conv sigs m capacity smp).1.length ≤ m.length.toNat := by
  unfold msgToSample
  split
  · rename_i hverify
    unfold msgVerify at *
    split_ifs at * with h₁ h₂ h₃
    all_goals simp at *
  · dsimp only
    split
    · exact .inl (Int.negSucc_lt_zero 0)
    · refine .inr ⟨rfl, ?_⟩
      dsimp only
      omega

theorem convertData_length (f : BitVec 32 → BitVec 32) (n : Nat) (data : List (BitVec 32)) :
    (convertData f n data).length = data.length := by
  unfold convertData
  rw [List.length_append, List.length_map, ← List.length_append, List.take_append_drop]

end

/-! ## The whole buffer -/

namespace VillasBinaryFormat

variable (fmt : VillasBinaryFormat)

/-- The message at the front of these bytes, as the scan converts it. -/
def received (values : Nat) (rest : List Byte) : Msg :=
  if fmt.web then Msg.load fmt.host values rest else msgNtoh fmt.host (Msg.load fmt.host values rest)

def announced (rest : List Byte) : Nat :=
  (if fmt.web then (Msg.load fmt.host 0 rest).length
    else ntoh fmt.host 16 (Msg.load fmt.host 0 rest).length).toNat

theorem received_length (rest : List Byte) :
    (fmt.received (fmt.announced rest) rest).length.toNat = fmt.announced rest ∧
      (fmt.received (fmt.announced rest) rest).data.length = fmt.announced rest := by
  generalize hv : fmt.announced rest = values
  unfold announced at hv
  unfold received
  split
  · rename_i hweb
    rw [if_pos hweb] at hv
    exact ⟨hv, loadAll_length ..⟩
  · rename_i hweb
    rw [if_neg hweb] at hv
    refine ⟨hv, ?_⟩
    exact (convertData_length ..).trans (loadAll_length ..)

theorem sscanLoop_step {rest : List Byte} (hheader : ¬ rest.length < msgLen 0)
    (hwhole : ¬ rest.length < msgLen (fmt.announced rest)) (smp : Receiver) (rx : List Receiver) :
    fmt.sscanLoop rest (smp :: rx) =
      let out := fmt.decode (fmt.received (fmt.announced rest) rest) smp
      if out.2 ≠ 0 then ⟨{ smp with payload := out.1 } :: rx, .error out.2⟩
      else
        (fmt.sscanLoop (((fmt.received (fmt.announced rest) rest).bytes fmt.host ++
          rest.drop (msgLen (fmt.announced rest))).drop (msgLen out.1.length)) rx).cons
            { smp with payload := out.1 } (msgLen out.1.length) := by
  have hne : rest ≠ [] := by
    rintro rfl
    exact hheader (by decide)
  unfold announced at *
  rw [sscanLoop]
  simp only [if_neg hne, if_neg hheader, if_neg hwhole]
  rfl

/-- The bytes that the scan leaves behind, of those that were in the buffer. -/
def left (rest : List Byte) : List Receiver → List Byte
  | [] => rest
  | smp :: smps =>
    if rest.length < msgLen (fmt.announced rest) then rest
    else
      let m := fmt.received (fmt.announced rest) rest
      let buf := m.bytes fmt.host ++ rest.drop (msgLen (fmt.announced rest))
      let out := fmt.decode m smp
      if out.2 ≠ 0 then buf
      else buf.take (msgLen out.1.length) ++ left (buf.drop (msgLen out.1.length)) smps

theorem left_short {rest : List Byte} {smps : List Receiver}
    (h : rest.length < msgLen (fmt.announced rest)) : fmt.left rest smps = rest := by
  cases smps with
  | nil => rfl
  | cons smp smps => rw [left, if_pos h]

/-- The scan of a buffer in memory finds what the scan of the list of bytes finds, and stays within
the buffer and the samples. -/
structure ScansAs (fmt : VillasBinaryFormat) (len i ptr : Nat) (rest : List Byte) (rx : List Receiver)
    (out : ScannedAt) : Prop where
  safe : out.mem.Safe
  length : out.mem.bytes.length = len
  smps : out.smps = (fmt.sscanLoop rest rx).smps
  result : out.result = (fmt.sscanLoop rest rx).result.map fun (n, k) => (i + n, ptr + k)
  written : ∀ (k : Nat) (ws : List Nat), out.written[k]? = some ws →
    ∃ smp : Receiver, rx[k]? = some smp ∧ ∀ v ∈ ws, v < smp.capacity
  counts : ∀ n r, out.result = .ok (n, r) → n ≤ i + rx.length ∧ r ≤ len
  errors : ∀ ret, out.result = .error ret → ret < 0

theorem received_holding {mem : Memory} {pre rest : List Byte} (hmem : mem.bytes = pre ++ rest)
    (hsafe : mem.Safe) (hwhole : msgLen (fmt.announced rest) ≤ rest.length) :
    ∃ mem', (if fmt.web then some mem else msgNtohAt fmt.host pre.length mem) = some mem' ∧
      Holding fmt.host pre (rest.drop (msgLen (fmt.announced rest)))
        (fmt.received (fmt.announced rest) rest) mem' := by
  have hlength := fmt.received_length rest
  have hholding : Holding fmt.host pre (rest.drop (msgLen (fmt.announced rest)))
      (Msg.load fmt.host (fmt.announced rest) rest) mem := by
    refine ⟨?_, hsafe⟩
    rw [hmem, bytes_load _ _ hwhole, List.take_append_drop]
  unfold received at *
  split
  · exact ⟨mem, rfl, hholding⟩
  · rename_i hweb
    rw [if_neg hweb] at hlength
    apply hholding.ntoh
    rw [show (Msg.load fmt.host (fmt.announced rest) rest).data.length = fmt.announced rest from
      loadAll_length ..]
    exact hlength.1

theorem sscanLoopAt_header {mem : Memory} {pre rest : List Byte} (i : Nat) (smp : Receiver)
    (rx : List Receiver) (hmem : mem.bytes = pre ++ rest) (hsafe : mem.Safe)
    (hheader : ¬ rest.length < msgLen 0) :
    ∃ mem₁ : Memory, mem₁.bytes = pre ++ rest ∧ mem₁.Safe ∧
      fmt.sscanLoopAt mem.bytes.length i pre.length mem (smp :: rx) =
        if rest.length < msgLen (fmt.announced rest) then
          some ⟨mem₁, fmt.receive smp :: rx, [], .error (-3)⟩
        else
          (if fmt.web then some mem₁ else msgNtohAt fmt.host pre.length mem₁).bind fun mem₂ =>
            let out := msgToSampleAt fmt.host fmt.conv (fmt.lists fmt.signals) pre.length smp.capacity
              mem₂ ⟨(fmt.receive smp).payload, []⟩
            if out.2.2 ≠ 0 then
              some ⟨out.1, { smp with payload := out.2.1.payload } :: rx, [out.2.1.written],
                .error out.2.2⟩
            else
              (fmt.sscanLoopAt mem.bytes.length (i + 1) (pre.length + msgLen out.2.1.payload.length) out.1
                rx).map (ScannedAt.cons { smp with payload := out.2.1.payload } out.2.1.written) := by
  have hlen : mem.bytes.length = pre.length + rest.length := by rw [hmem, List.length_append]
  have hhead : Holding fmt.host pre (rest.drop (msgLen 0)) (Msg.load fmt.host 0 rest) mem := by
    refine ⟨?_, hsafe⟩
    rw [hmem, bytes_load _ _ (Nat.le_of_not_lt hheader), List.take_append_drop]
  obtain ⟨hload, hlength⟩ := hhead.load (by decide) (length_at fmt.host _) rfl
  refine ⟨(mem.load fmt.host 16 (pre.length + 2)).1, hmem, hload.safe, ?_⟩
  have hpos : ¬ pre.length = mem.bytes.length ∧ ¬ mem.bytes.length < pre.length + msgLen 0 := by
    unfold msgLen at *
    omega
  have hwhole : mem.bytes.length < pre.length + msgLen (fmt.announced rest) ↔
      rest.length < msgLen (fmt.announced rest) := by omega
  unfold announced at *
  rw [sscanLoopAt]
  simp only [if_neg hpos.1, if_neg hpos.2, hlength, hwhole]
  rfl

theorem scansAs_end {mem : Memory} {len i : Nat} {pre rest : List Byte} {rx rx' : List Receiver}
    (hmem : mem.bytes = pre ++ rest) (hlen : mem.bytes.length = len) (hsafe : mem.Safe)
    {result : Except Int (Nat × Nat)} (hscan : fmt.sscanLoop rest rx = ⟨rx', result⟩)
    (hresult : result = .ok (0, 0) ∨ ∃ ret < 0, result = .error ret) :
    ScansAs fmt len i pre.length rest rx
      ⟨mem, rx', [], result.map fun (n, k) => (i + n, pre.length + k)⟩ := by
  refine ⟨hsafe, hlen, ?_, ?_, fun k ws hk => ?_, fun n r hr => ?_, fun ret hr => ?_⟩
  · rw [hscan]
  · rw [hscan]
  · simp at hk
  · rcases hresult with rfl | ⟨ret, _, rfl⟩
    · cases hr
      rw [← hlen, hmem, List.length_append]
      omega
    · cases hr
  · rcases hresult with rfl | ⟨ret, hneg, rfl⟩
    · cases hr
    · cases hr
      exact hneg

theorem scansAs_cons {len i ptr k : Nat} {rest rest' : List Byte} {rx : List Receiver}
    {smp smp' : Receiver} {written : List Nat} {out : ScannedAt}
    (hscan : fmt.sscanLoop rest (smp :: rx) = (fmt.sscanLoop rest' rx).cons smp' k)
    (hwritten : ∀ v ∈ written, v < smp.capacity)
    (h : ScansAs fmt len (i + 1) (ptr + k) rest' rx out) :
    ScansAs fmt len i ptr rest (smp :: rx) (ScannedAt.cons smp' written out) := by
  refine ⟨h.safe, h.length, ?_, ?_, fun j ws hj => ?_, fun n r hr => ?_, h.errors⟩
  · rw [hscan]
    exact congrArg (smp' :: ·) h.smps
  · rw [hscan]
    refine h.result.trans ?_
    unfold Scanned.cons
    rcases (fmt.sscanLoop rest' rx).result with ret | ⟨n, r⟩
    · rfl
    · simp only [Except.map, Except.ok.injEq, Prod.mk.injEq]
      omega
  · cases j with
    | zero =>
      cases hj
      exact ⟨smp, rfl, hwritten⟩
    | succ j => exact h.written j ws hj
  · have := h.counts n r hr
    rw [List.length_cons]
    omega

theorem sscanLoopAt_scans (rx : List Receiver) {mem : Memory} {pre rest : List Byte} (i : Nat)
    (hmem : mem.bytes = pre ++ rest) (hsafe : mem.Safe) :
    ∃ out, fmt.sscanLoopAt mem.bytes.length i pre.length mem rx = some out ∧
      ScansAs fmt mem.bytes.length i pre.length rest rx out ∧
      out.mem.bytes = pre ++ fmt.left rest rx := by
  induction rx generalizing mem pre rest i with
  | nil => exact ⟨_, rfl, fmt.scansAs_end hmem rfl hsafe rfl (.inl rfl), hmem⟩
  | cons smp rx ih =>
    have hlen : mem.bytes.length = pre.length + rest.length := by rw [hmem, List.length_append]
    by_cases hnil : rest = []
    · have hend : pre.length = mem.bytes.length := by rw [hlen, hnil, List.length_nil, Nat.add_zero]
      have hscan : fmt.sscanLoop rest (smp :: rx) = ⟨fmt.receive smp :: rx, .ok (0, 0)⟩ := by
        rw [sscanLoop, if_pos hnil]
        rfl
      have hshort : rest.length < msgLen (fmt.announced rest) := by
        rw [hnil, List.length_nil]
        unfold msgLen
        omega
      refine ⟨_, ?_, fmt.scansAs_end hmem rfl hsafe hscan (.inl rfl), ?_⟩
      · rw [sscanLoopAt, if_pos hend]
        rfl
      · rw [fmt.left_short hshort]
        exact hmem
    by_cases hheader : rest.length < msgLen 0
    · have hpos : 0 < rest.length := List.length_pos_iff.mpr hnil
      have hscan : fmt.sscanLoop rest (smp :: rx) = ⟨fmt.receive smp :: rx, .error (-2)⟩ := by
        rw [sscanLoop, if_neg hnil, if_pos hheader]
        rfl
      have hshort : rest.length < msgLen (fmt.announced rest) := by
        unfold msgLen at *
        omega
      refine ⟨_, ?_, fmt.scansAs_end hmem rfl hsafe hscan (.inr ⟨-2, by decide, rfl⟩), ?_⟩
      · rw [sscanLoopAt, if_neg (by omega), if_pos (by omega)]
        rfl
      · rw [fmt.left_short hshort]
        exact hmem
    obtain ⟨mem₁, hmem₁, hsafe₁, hloop⟩ := fmt.sscanLoopAt_header i smp rx hmem hsafe hheader
    rw [hloop]
    by_cases hwhole : rest.length < msgLen (fmt.announced rest)
    · have hscan : fmt.sscanLoop rest (smp :: rx) = ⟨fmt.receive smp :: rx, .error (-3)⟩ := by
        unfold announced at hwhole
        rw [sscanLoop, if_neg hnil, if_neg hheader]
        dsimp only
        rw [if_pos hwhole]
        rfl
      rw [if_pos hwhole]
      refine ⟨_, rfl, fmt.scansAs_end hmem₁ (by rw [hmem₁, hmem]) hsafe₁ hscan
        (.inr ⟨-3, by decide, rfl⟩), ?_⟩
      rw [fmt.left_short hwhole]
      exact hmem₁
    rw [if_neg hwhole]
    obtain ⟨mem₂, hmem₂, hholding⟩ := fmt.received_holding hmem₁ hsafe₁ (Nat.le_of_not_lt hwhole)
    rw [hmem₂, Option.bind_some]
    obtain ⟨hvalid, hdata⟩ := fmt.received_length rest
    have hstep := fmt.sscanLoop_step hheader hwhole smp rx
    have hleft : fmt.left rest (smp :: rx) = _ := if_neg hwhole
    dsimp only at hleft
    have hsample := hholding.toSample fmt.conv (fmt.lists fmt.signals) smp.capacity
      (fmt.receive smp).payload (hvalid.trans hdata.symm)
    have hspec := msgToSample_spec fmt.conv (fmt.lists fmt.signals)
      (fmt.received (fmt.announced rest) rest) smp.capacity (fmt.receive smp).payload
    unfold decode at hstep hleft
    rw [← hsample.sample] at hstep hspec hleft
    generalize msgToSampleAt fmt.host fmt.conv (fmt.lists fmt.signals) pre.length smp.capacity mem₂
      ⟨(fmt.receive smp).payload, []⟩ = out at *
    obtain ⟨mem₃, target, ret⟩ := out
    dsimp only at *
    have hbytes₃ := hsample.holding.bytes
    have hlen₃ : mem₃.bytes.length = mem.bytes.length := by
      rw [hbytes₃, hlen]
      simp only [List.length_append, bytes_length, hdata, List.length_drop]
      omega
    by_cases hret : ret = 0
    · rw [if_neg (not_not.mpr hret)] at hstep hleft ⊢
      have hshort : msgLen target.payload.length ≤ mem.bytes.length - pre.length := by
        unfold msgLen at *
        omega
      generalize hbuf : (fmt.received (fmt.announced rest) rest).bytes fmt.host ++
        rest.drop (msgLen (fmt.announced rest)) = buf at *
      have hbuf : buf.length = rest.length := by
        rw [hbytes₃, List.length_append] at hlen₃
        omega
      have hpre : (pre ++ buf.take (msgLen target.payload.length)).length =
          pre.length + msgLen target.payload.length := by
        rw [List.length_append, List.length_take]
        omega
      have hsplit : mem₃.bytes = (pre ++ buf.take (msgLen target.payload.length)) ++
          buf.drop (msgLen target.payload.length) := by
        rw [hbytes₃, List.append_assoc, List.take_append_drop]
      obtain ⟨out, hout, hscans, hbytes⟩ := ih (i + 1) hsplit hsample.holding.safe
      rw [hpre, hlen₃] at hout hscans
      refine ⟨_, ?_, fmt.scansAs_cons hstep hsample.written hscans, ?_⟩
      · rw [hout]
        rfl
      · rw [hleft, ← List.append_assoc]
        exact hbytes
    · rw [if_pos hret] at hstep hleft ⊢
      refine ⟨_, rfl, ⟨hsample.holding.safe, hlen₃, ?_, ?_, fun k ws hk => ?_, fun n r hr => ?_, ?_⟩,
        hbytes₃.trans (congrArg (pre ++ ·) hleft.symm)⟩
      · rw [hstep]
      · rw [hstep]
        rfl
      · cases k with
        | zero =>
          cases hk
          exact ⟨smp, rfl, hsample.written⟩
        | succ k => simp at hk
      · cases hr
      · rintro ret' ⟨⟩
        omega

/-- Every access of `sscan` to the buffer is to one of its bytes, every value that is written is in
the capacity of its sample, and what is returned is in the bounds of the call. The samples and the
result are those of the scan of the bytes. -/
theorem sscan_memory_safe (buf : List Byte) (smps : List Receiver) :
    ∃ out, fmt.sscanAt buf smps = some out ∧
      (∀ a ∈ out.mem.log, a.index < buf.length) ∧
      (∀ (k : Nat) (ws : List Nat), out.written[k]? = some ws →
        ∃ smp, smps[k]? = some smp ∧ ∀ v ∈ ws, v < smp.capacity) ∧
      (∀ n rbytes, out.result = .ok (n, rbytes) → n ≤ smps.length ∧ rbytes ≤ buf.length) ∧
      (∀ ret, out.result = .error ret → ret < 0) ∧
      (⟨out.smps, out.result⟩ : Scanned) = fmt.sscan buf smps := by
  unfold sscanAt sscan
  split
  · refine ⟨_, rfl, by simp, by simp, by simp, ?_, rfl⟩
    rintro ret ⟨⟩
    decide
  · have hstart : (⟨buf, []⟩ : Memory).bytes = [] ++ buf := rfl
    obtain ⟨out, hout, hscans, -⟩ := fmt.sscanLoopAt_scans smps 0 hstart
      (fun a ha => (List.not_mem_nil ha).elim)
    refine ⟨out, hout, fun a ha => ?_, hscans.written, fun n r hr => ?_, hscans.errors, ?_⟩
    · rw [← show out.mem.bytes.length = buf.length from hscans.length]
      exact hscans.safe a ha
    · have := hscans.counts n r hr
      rwa [Nat.zero_add] at this
    · have hresult := hscans.result
      rw [hscans.smps, hresult]
      congr 1
      rcases (fmt.sscanLoop buf smps).result with ret | ⟨n, r⟩
      · rfl
      · simp [Except.map]

end VillasBinaryFormat

end VillasNode
