import VillasNode.Node.CanRead

/-!
# Writing to a CAN bus

`can_write` of `lib/nodes/can.cpp`. The frames are one piece of memory, so a
value that runs over the end of its payload goes to the next frame. `write` to
the socket takes the whole frame.
-/

namespace VillasNode.Can

open ByteOrder ByteMemory

/-- The `data` of a sample. -/
abbrev Data := Nat → Value

/-- An array of `can_frame`, of 16 bytes each, and the number in use. -/
structure Frames where
  memory : Memory
  touched : List Nat
  fsize : Nat

namespace Frames

def calloc (n : Nat) : Frames := ⟨⟨List.replicate (16 * n) 0, []⟩, [], 0⟩

def canId (e : Endian) (a : Frames) (j : Nat) : BitVec 32 :=
  ByteOrder.load e 32 ((a.memory.bytes.drop (16 * j)).take 4)

def canDlc (a : Frames) (j : Nat) : Byte := a.memory.bytes.getD (16 * j + 4) 0

def setId (e : Endian) (a : Frames) (j : Nat) (id : BitVec 32) : Frames :=
  { a with
    memory := { a.memory with bytes := overwrite (16 * j) (store e 32 id) a.memory.bytes }
    touched := a.touched ++ [j] }

def setDlc (a : Frames) (j : Nat) (dlc : Byte) : Frames :=
  { a with
    memory := { a.memory with bytes := overwrite (16 * j + 4) [dlc] a.memory.bytes }
    touched := a.touched ++ [j] }

def frame (a : Frames) (j : Nat) : List Byte := (a.memory.bytes.drop (16 * j)).take 16

def written (a : Frames) : List (List Byte) := (List.range a.fsize).map a.frame

end Frames

/-! ## The loops

They tell whether they ended without an exception. -/

section
variable (h : Host)

def ownLoop (data : Data) : Nat → List CanSignal → Frames → Frames × Bool
  | _, [], a => (a, true)
  | i, s :: signals, a =>
    if s.offset ≠ 0 then ownLoop data (i + 1) signals a
    else
      let a := (a.setDlc a.fsize (.ofNat 8 s.size)).setId h.endian a.fsize s.id
      match convertToRaw h (data i) s.type a.memory (16 * a.fsize + 8) s.size with
      | none => (a, false)
      | some m => ownLoop data (i + 1) signals { a with memory := m, fsize := a.fsize + 1 }

def sharedLoop (data : Data) : Nat → List CanSignal → Frames → Frames × Bool
  | _, [], a => (a, true)
  | i, s :: signals, a =>
    if s.offset = 0 then sharedLoop data (i + 1) signals a
    else
      match (List.range a.fsize).find? fun j => s.id = a.canId h.endian j with
      | none => sharedLoop data (i + 1) signals a
      | some j =>
        let a := a.setDlc j (a.canDlc j + .ofNat 8 s.size)
        match convertToRaw h (data i) s.type a.memory (16 * j + 8 + s.offset) s.size with
        | none => (a, false)
        | some m => sharedLoop data (i + 1) signals { a with memory := m }

variable (signals : List CanSignal)

def fill (data : Data) (a : Frames) : Frames × Bool :=
  match ownLoop h data 0 signals a with
  | (a, false) => (a, false)
  | (a, true) => sharedLoop h data 0 signals a

/-- The return value is `none` for an exception. -/
structure Written where
  frames : Frames
  sent : List (List Byte)
  nwrite : Option Nat

def writeLoop : List Data → Nat → Frames → Written
  | [], nwrite, a => ⟨a, [], some nwrite⟩
  | data :: smps, nwrite, a =>
    match fill h signals data a with
    | (a, false) => ⟨a, [], none⟩
    | (a, true) =>
      let r := writeLoop smps (nwrite + 1) a
      { r with sent := a.written ++ r.sent }

def canWrite (smps : List Data) : Written := writeLoop h signals smps 0 (.calloc signals.length)

/-! ## The specification -/

/-- Nothing was written beyond an array of `n` frames. -/
def Frames.Within (a : Frames) (n : Nat) : Prop :=
  (∀ j ∈ a.touched, j < n) ∧ ∀ x ∈ a.memory.log, x.index < 16 * n

def Concatenates (smps : List Data) : Prop :=
  (canWrite h signals smps).frames.Within signals.length ∧
    (canWrite h signals smps).sent = smps.flatMap fun data => (canWrite h signals [data]).sent

/-- The bytes of a value that go over the end of its payload, if it can be converted. -/
def overrun (s : CanSignal) (v : Value) : Option (List Byte) :=
  (convertToRaw h v s.type ⟨[], []⟩ 0 s.size).map fun m => m.bytes.drop (8 - s.offset)

/-- The id of the next frame behind such bytes. -/
def clobber (e : Endian) (bs : List Byte) (id : BitVec 32) : BitVec 32 :=
  ByteOrder.load e 32 (overwrite 0 (bs.take 4) (store e 32 id))

/-- A signal that cannot be converted has one of the ids, as the values in front of it leave them. -/
def reached (data : Data) : Nat → List CanSignal → List (BitVec 32) → Bool
  | _, [], _ => false
  | i, s :: signals, ids =>
    if s.offset = 0 then reached data (i + 1) signals ids
    else
      match ids.findIdx? fun id => s.id = id with
      | none => reached data (i + 1) signals ids
      | some j =>
        match overrun h s (data i) with
        | none => true
        | some bs => reached data (i + 1) signals (ids.modify (j + 1) (clobber h.endian bs))

def ownIds (signals : List CanSignal) : List (BitVec 32) :=
  (signals.filter (·.offset = 0)).map (·.id)

/-- A conversion of this sample is not supported, and is reached. -/
def Refused (data : Data) : Prop :=
  (∃ s ∈ signals, s.offset = 0 ∧ ¬ s.supported) ∨ reached h data 0 signals (ownIds signals) = true

instance (data : Data) : Decidable (Refused h signals data) := inferInstanceAs (Decidable (_ ∨ _))

end

/-- Every value ends within the payload of its frame. -/
def FitsPayload (signals : List CanSignal) : Prop := ∀ s ∈ signals, s.offset + s.width ≤ 8

/-! ## One conversion -/

section
variable {h : Host} {s : CanSignal} {m : Memory} {p n : Nat} {a : Frames}

theorem width_pos (hs : s.supported) : 0 < s.width ∧ s.width ≤ 8 := by
  obtain ⟨id, offset, size, type⟩ := s
  cases type <;> simp [CanSignal.supported, CanSignal.width] at hs ⊢ <;> omega

/-- These bytes were written from `p` on. -/
def Writes (m : Memory) (p : Nat) (bs : List Byte) (m' : Memory) : Prop :=
  m'.log = m.log ++ (List.range' p bs.length).map .write ∧
    (p ≤ m.bytes.length → m'.bytes = overwrite p bs m.bytes)

theorem writes_store {e : Endian} {w : Nat} (x : BitVec w) :
    Writes m p (store e w x) (m.store e w p x) := by
  refine ⟨?_, fun _ => rfl⟩
  rw [store_length]
  rfl

theorem Writes.append {m' m'' : Memory} {bs cs : List Byte} (hfirst : Writes m p bs m')
    (hsecond : Writes m' (p + bs.length) cs m'') : Writes m p (bs ++ cs) m'' := by
  obtain ⟨hlog, hbytes⟩ := hfirst
  obtain ⟨hlog', hbytes'⟩ := hsecond
  refine ⟨?_, fun hp => ?_⟩
  · rw [hlog', hlog, List.append_assoc, ← List.map_append, List.range'_append_1, List.length_append]
  · have hm' := hbytes hp
    have hlen : p + bs.length ≤ m'.bytes.length := by
      rw [hm', overwrite, List.length_append, List.length_append, List.length_take_of_le hp]
      omega
    rw [hbytes' hlen, hm', overwrite_overwrite hp]

theorem writes_two {e : Endian} {w w' : Nat} (x : BitVec w) (y : BitVec w') :
    Writes m p (store e w x ++ store e w' y) ((m.store e w p x).store e w' (p + w / 8) y) := by
  refine (writes_store x).append ?_
  rw [store_length]
  exact writes_store y

theorem convertToRaw_supported (hs : s.supported) (v : Value) :
    ∃ bs : List Byte, bs.length = s.width ∧
      ∀ m p, ∃ m', convertToRaw h v s.type m p s.size = some m' ∧ Writes m p bs m' := by
  obtain ⟨id, offset, size, type⟩ := s
  cases type with
  | invalid => simp [CanSignal.supported] at hs
  | boolean =>
    simp only [CanSignal.supported, decide_eq_true_eq] at hs
    simp only [convertToRaw, if_neg (show ¬ (size = 0 ∨ 8 < size) by omega)]
    exact ⟨_, store_length .., fun m p => ⟨_, rfl, writes_store (boolean h v)⟩⟩
  | integer =>
    simp only [CanSignal.supported, decide_eq_true_eq, List.mem_cons, List.not_mem_nil,
      or_false] at hs
    rcases hs with rfl | rfl | rfl | rfl | rfl
    · exact ⟨_, store_length .., fun m p => ⟨_, rfl, writes_store (v.setWidth 8)⟩⟩
    · exact ⟨_, store_length .., fun m p => ⟨_, rfl, writes_store (v.setWidth 16)⟩⟩
    · refine ⟨_, ?_, fun m p => ⟨_, rfl, writes_two (v.setWidth 16) ((v.sshiftRight 16).setWidth 8)⟩⟩
      rw [List.length_append, store_length, store_length]
      rfl
    · exact ⟨_, store_length .., fun m p => ⟨_, rfl, writes_store (v.setWidth 32)⟩⟩
    · exact ⟨_, store_length .., fun m p => ⟨_, rfl, writes_store v⟩⟩
  | float =>
    simp only [CanSignal.supported, decide_eq_true_eq] at hs
    rcases hs with rfl | rfl
    · exact ⟨_, store_length .., fun m p => ⟨_, rfl, writes_store (h.conv.narrow v)⟩⟩
    · exact ⟨_, store_length .., fun m p => ⟨_, rfl, writes_store v⟩⟩
  | complex =>
    simp only [CanSignal.supported, decide_eq_true_eq] at hs
    subst hs
    refine ⟨_, ?_, fun m p => ⟨_, rfl, writes_two (real h v) (imag h v)⟩⟩
    rw [List.length_append, store_length, store_length]
    rfl

theorem convertToRaw_unsupported (hs : ¬ s.supported) (v : Value) :
    convertToRaw h v s.type m p s.size = none := by
  obtain ⟨id, offset, size, type⟩ := s
  by_cases hsize : size = 0 ∨ 8 < size
  · exact if_pos hsize
  · cases type with
    | invalid => simp only [convertToRaw, if_neg hsize]
    | boolean =>
      simp only [CanSignal.supported, decide_eq_true_eq] at hs
      omega
    | integer =>
      simp only [convertToRaw, if_neg hsize]
      split <;> simp_all [CanSignal.supported]
    | float =>
      simp only [convertToRaw, if_neg hsize]
      split <;> simp_all [CanSignal.supported]
    | complex =>
      simp only [CanSignal.supported, decide_eq_true_eq] at hs
      simp only [convertToRaw, if_neg hsize, if_pos hs, ne_eq]

theorem overrun_unsupported (hs : ¬ s.supported) (v : Value) : overrun h s v = none := by
  rw [overrun, convertToRaw_unsupported hs, Option.map_none]

theorem overrun_supported (hs : s.supported) (v : Value) :
    ∃ bs : List Byte, bs.length = s.width ∧ overrun h s v = some (bs.drop (8 - s.offset)) ∧
      ∀ m p, ∃ m', convertToRaw h v s.type m p s.size = some m' ∧ Writes m p bs m' := by
  obtain ⟨bs, hlen, hwrites⟩ := @convertToRaw_supported h s hs v
  obtain ⟨m', hconv, -, hbytes⟩ := hwrites ⟨[], []⟩ 0
  refine ⟨bs, hlen, ?_, hwrites⟩
  have hall : overwrite 0 bs [] = bs := by
    rw [overwrite, List.drop_nil, List.append_nil, List.take_nil, List.nil_append]
  rw [overrun, hconv, Option.map_some, hbytes (Nat.zero_le _), hall]

theorem clobber_nil (e : Endian) (id : BitVec 32) : clobber e [] id = id := by
  rw [clobber, overwrite, List.take_nil, List.take_zero, List.length_nil, Nat.add_zero,
    List.drop_zero, List.nil_append, List.nil_append, load_store (by decide)]

end

/-! ## The array -/

section
variable {h : Host} {e : Endian} {s : CanSignal} {m : Memory} {p n i j : Nat} {a a' b : Frames}
  {bs : List Byte}

structure InArray (n : Nat) (a : Frames) : Prop where
  length : a.memory.bytes.length = 16 * n
  within : a.Within n

/-- What was accessed in `a` was accessed in `b`. -/
structure Grows (a b : Frames) : Prop where
  touched : ∀ j ∈ a.touched, j ∈ b.touched
  log : ∀ x ∈ a.memory.log, x ∈ b.memory.log

theorem Grows.refl (a : Frames) : Grows a a := ⟨fun _ hj => hj, fun _ hx => hx⟩

theorem Grows.trans (hab : Grows a a') (hbc : Grows a' b) : Grows a b :=
  ⟨fun j hj => hbc.touched j (hab.touched j hj), fun x hx => hbc.log x (hab.log x hx)⟩

theorem Frames.Within.of_grows (hab : Grows a b) (hb : b.Within n) : a.Within n :=
  ⟨fun j hj => hb.1 j (hab.touched j hj), fun x hx => hb.2 x (hab.log x hx)⟩

theorem inArray_calloc (n : Nat) : InArray n (.calloc n) :=
  ⟨List.length_replicate, nofun, nofun⟩

def idList (e : Endian) (a : Frames) : List (BitVec 32) := (List.range a.fsize).map (a.canId e)

/-- `b` is `a` after a write to the header of frame `j`. -/
structure Header (a : Frames) (j : Nat) (b : Frames) : Prop where
  fsize : b.fsize = a.fsize
  touched : b.touched = a.touched ++ [j]
  log : b.memory.log = a.memory.log
  bytes : ∃ q bs, 16 * j ≤ q ∧ q + bs.length ≤ 16 * j + 8 ∧
    b.memory.bytes = overwrite q bs a.memory.bytes

theorem header_setDlc (a : Frames) (j : Nat) (dlc : Byte) : Header a j (a.setDlc j dlc) :=
  ⟨rfl, rfl, rfl, 16 * j + 4, [dlc], by omega, by rw [List.length_singleton]; omega, rfl⟩

theorem header_setId (e : Endian) (a : Frames) (j : Nat) (id : BitVec 32) :
    Header a j (a.setId e j id) :=
  ⟨rfl, rfl, rfl, 16 * j, store e 32 id, by omega, by rw [store_length]; omega, rfl⟩

theorem Header.grows (hb : Header a j b) : Grows a b :=
  ⟨fun j hj => by rw [hb.touched]; exact List.mem_append_left _ hj, fun x hx => by rwa [hb.log]⟩

theorem Header.inArray (hb : Header a j b) (ha : InArray n a) (hj : j < n) : InArray n b := by
  obtain ⟨q, bs, hq, hle, hbytes⟩ := hb.bytes
  have hlen := ha.length
  refine ⟨?_, fun i hi => ?_, fun x hx => ?_⟩
  · rw [hbytes, overwrite_length (by omega), hlen]
  · rw [hb.touched] at hi
    obtain hi | hi := List.mem_append.mp hi
    · exact ha.within.1 i hi
    · rwa [List.mem_singleton.mp hi]
  · rw [hb.log] at hx
    exact ha.within.2 x hx

theorem canId_of_range (hb : (b.memory.bytes.drop (16 * i)).take 4 =
    (a.memory.bytes.drop (16 * i)).take 4) : b.canId e i = a.canId e i := by
  rw [Frames.canId, hb]
  rfl

theorem Header.canId_other (hb : Header a j b) (ha : InArray n a) (hj : j < n) (hi : i ≠ j) :
    b.canId e i = a.canId e i := by
  obtain ⟨q, bs, hq, hle, hbytes⟩ := hb.bytes
  have hlen := ha.length
  apply canId_of_range
  rw [hbytes, range_overwrite_outside (by omega) (by omega)]

theorem canId_setDlc (ha : InArray n a) (hj : j < n) (dlc : Byte) :
    (a.setDlc j dlc).canId e i = a.canId e i := by
  have hlen := ha.length
  apply canId_of_range
  exact range_overwrite_outside (by rw [List.length_singleton]; omega)
    (by rw [List.length_singleton]; omega)

theorem canId_setId (ha : InArray n a) (hj : j < n) (id : BitVec 32) :
    (a.setId e j id).canId e j = id := by
  have hlen := ha.length
  have hword : (store e 32 id).length = 4 := store_length ..
  have hrange := @range_overwrite_inside (16 * j) (store e 32 id) a.memory.bytes (by omega)
  rw [hword] at hrange
  exact (congrArg (ByteOrder.load e 32) hrange).trans (load_store (by decide) id)

theorem grows_convert (hm : Writes a.memory p bs m) (fsize : Nat) :
    Grows a ⟨m, a.touched, fsize⟩ :=
  ⟨fun _ hj => hj, fun x hx => by rw [hm.1]; exact List.mem_append_left _ hx⟩

theorem InArray.convert (ha : InArray n a) (hm : Writes a.memory p bs m)
    (hp : p + bs.length ≤ 16 * n) (fsize : Nat) : InArray n ⟨m, a.touched, fsize⟩ := by
  have hlen := ha.length
  have hbytes := hm.2 (by omega)
  refine ⟨?_, ha.within.1, fun x hx => ?_⟩
  · rw [hbytes, overwrite_length (by omega), hlen]
  · rw [hm.1] at hx
    obtain hx | hx := List.mem_append.mp hx
    · exact ha.within.2 x hx
    · obtain ⟨q, hq, rfl⟩ := List.mem_map.mp hx
      rw [List.mem_range'_1] at hq
      exact Nat.lt_of_lt_of_le hq.2 hp

theorem canId_convert (ha : InArray n a) (hm : Writes a.memory p bs m)
    (hp : p + bs.length ≤ 16 * n) (hi : 16 * i + 4 ≤ p ∨ p + bs.length ≤ 16 * i) (fsize : Nat) :
    Frames.canId e ⟨m, a.touched, fsize⟩ i = a.canId e i := by
  have hlen := ha.length
  have hbytes := hm.2 (by omega)
  apply canId_of_range
  rw [hbytes, range_overwrite_outside (by omega) hi]

theorem canId_clobber {offset : Nat} (ha : InArray n a)
    (hm : Writes a.memory (16 * j + 8 + offset) bs m) (hoffset : offset ≤ 8) (hj : j + 1 < n)
    (fsize : Nat) :
    Frames.canId e ⟨m, a.touched, fsize⟩ (j + 1) =
      clobber e (bs.drop (8 - offset)) (a.canId e (j + 1)) := by
  have hlen := ha.length
  have hword : ((a.memory.bytes.drop (16 * (j + 1))).take 4).length = 32 / 8 := by
    rw [List.length_take, List.length_drop]
    omega
  have hrange := @range_overwrite_front (16 * j + 8 + offset) bs a.memory.bytes (8 - offset) 4
    (by omega)
  have hnext : 16 * j + 8 + offset + (8 - offset) = 16 * (j + 1) := by omega
  rw [hnext] at hrange
  rw [Frames.canId, hm.2 (by omega), hrange, clobber, Frames.canId, store_load (by decide) hword]

theorem find_idList (id : BitVec 32) :
    ((List.range a.fsize).find? fun j => id = a.canId e j) =
      (idList e a).findIdx? fun id' => id = id' := by
  apply Option.ext
  intro j
  rw [List.find?_range_eq_some, List.findIdx?_eq_some_iff_getElem, List.mem_range]
  simp only [idList, List.getElem_map, List.getElem_range, List.length_map, List.length_range,
    Bool.not_eq_true', decide_eq_true_eq, decide_eq_false_iff_not]
  constructor
  · rintro ⟨hid, hlt, hfirst⟩
    exact ⟨hlt, hid, hfirst⟩
  · rintro ⟨hlt, hid, hfirst⟩
    exact ⟨hid, hlt, hfirst⟩

end

/-! ## One signal -/

section
variable {h : Host} {s : CanSignal} {signals : List CanSignal} {data : Data} {a : Frames}
  {i j n : Nat}

theorem own_refused (hs : ¬ s.supported) (hown : s.offset = 0) :
    ∃ a', ownLoop h data i (s :: signals) a = (a', false) ∧ Grows a a' ∧
      ∀ n, InArray n a → a.fsize < n → InArray n a' := by
  have hdlc := header_setDlc a a.fsize (.ofNat 8 s.size)
  have hid := header_setId h.endian (a.setDlc a.fsize (.ofNat 8 s.size)) a.fsize s.id
  refine ⟨_, ?_, hdlc.grows.trans hid.grows, fun n ha hn => hid.inArray (hdlc.inArray ha hn) hn⟩
  rw [ownLoop, if_neg (not_not.mpr hown)]
  simp only [convertToRaw_unsupported hs]

theorem own_step (hs : s.supported) (hown : s.offset = 0) (data : Data) (i : Nat)
    (signals : List CanSignal) (a : Frames) :
    ∃ a', ownLoop h data i (s :: signals) a = ownLoop h data (i + 1) signals a' ∧
      a'.fsize = a.fsize + 1 ∧ Grows a a' ∧ a.fsize ∈ a'.touched ∧
      ∀ n, InArray n a → a.fsize < n →
        InArray n a' ∧ idList h.endian a' = idList h.endian a ++ [s.id] := by
  have hdlc := header_setDlc a a.fsize (.ofNat 8 s.size)
  generalize hb : a.setDlc a.fsize (.ofNat 8 s.size) = b at hdlc
  have hid := header_setId h.endian b a.fsize s.id
  generalize hc : b.setId h.endian a.fsize s.id = c at hid
  have hfsize : c.fsize = a.fsize := hid.fsize.trans hdlc.fsize
  obtain ⟨bs, hbs, hwrites⟩ := @convertToRaw_supported h s hs (data i)
  obtain ⟨m, hconv, hm⟩ := hwrites c.memory (16 * a.fsize + 8)
  obtain ⟨-, hwidth⟩ := width_pos hs
  refine ⟨⟨m, c.touched, a.fsize + 1⟩, ?_, rfl, (hdlc.grows.trans hid.grows).trans
    (grows_convert hm _), by rw [hid.touched]; simp, fun n ha hn => ?_⟩
  · rw [ownLoop, if_neg (not_not.mpr hown)]
    simp only [hb, hc, hfsize, hconv]
  · have hbn := hdlc.inArray ha hn
    have hcn := hid.inArray hbn hn
    refine ⟨hcn.convert hm (by omega) _, ?_⟩
    rw [idList, List.range_succ, List.map_append, List.map_singleton,
      canId_convert hcn hm (by omega) (by omega), ← hc, canId_setId hbn hn, hc]
    congr 1
    apply List.map_congr_left
    intro k hk
    rw [List.mem_range] at hk
    rw [canId_convert hcn hm (by omega) (by omega), hid.canId_other hbn hn (by omega),
      hdlc.canId_other ha hn (by omega)]

theorem find_canId (hj : (List.range a.fsize).find? (fun j => s.id = a.canId h.endian j) = some j) :
    j < a.fsize := List.mem_range.mp (List.mem_of_find?_eq_some hj)

theorem shared_refused (hs : ¬ s.supported) (hshared : s.offset ≠ 0)
    (hj : (List.range a.fsize).find? (fun j => s.id = a.canId h.endian j) = some j) :
    ∃ a', sharedLoop h data i (s :: signals) a = (a', false) ∧ Grows a a' ∧
      ∀ n, InArray n a → a.fsize ≤ n → InArray n a' := by
  have hdlc := header_setDlc a j (a.canDlc j + .ofNat 8 s.size)
  have hlt := find_canId hj
  refine ⟨_, ?_, hdlc.grows, fun n ha hn => hdlc.inArray ha (by omega)⟩
  rw [sharedLoop, if_neg hshared, hj]
  simp only [convertToRaw_unsupported hs]

theorem shared_step (hs : s.supported) (hshared : s.offset ≠ 0)
    (hj : (List.range a.fsize).find? (fun j => s.id = a.canId h.endian j) = some j) (data : Data)
    (i : Nat) (signals : List CanSignal) :
    ∃ a' bs, sharedLoop h data i (s :: signals) a = sharedLoop h data (i + 1) signals a' ∧
      overrun h s (data i) = some bs ∧ bs.length = s.width - (8 - s.offset) ∧
      a'.fsize = a.fsize ∧ Grows a a' ∧
      ∀ n, InArray n a → a.fsize ≤ n → 16 * a.fsize + s.offset + s.width ≤ 16 * n + 8 →
        InArray n a' ∧ (s.offset ≤ 8 →
          idList h.endian a' = (idList h.endian a).modify (j + 1) (clobber h.endian bs)) := by
  have hdlc := header_setDlc a j (a.canDlc j + .ofNat 8 s.size)
  generalize hb : a.setDlc j (a.canDlc j + .ofNat 8 s.size) = b at hdlc
  have hlt := find_canId hj
  obtain ⟨bs, hbs, hover, hwrites⟩ := @overrun_supported h s hs (data i)
  obtain ⟨m, hconv, hm⟩ := hwrites b.memory (16 * j + 8 + s.offset)
  obtain ⟨-, hwidth⟩ := width_pos hs
  refine ⟨⟨m, b.touched, b.fsize⟩, _, ?_, hover, by rw [List.length_drop, hbs], hdlc.fsize,
    hdlc.grows.trans (grows_convert hm _), fun n ha hn hroom => ?_⟩
  · rw [sharedLoop, if_neg hshared, hj]
    simp only [hb, hconv]
  · have hbn := hdlc.inArray ha (by omega)
    refine ⟨hbn.convert hm (by omega) _, fun hoffset => ?_⟩
    have hkeep (k : Nat) : b.canId h.endian k = a.canId h.endian k := by
      rw [← hb, canId_setDlc ha (by omega)]
    apply List.ext_getElem?
    intro k
    rw [List.getElem?_modify, idList, idList, hdlc.fsize, List.getElem?_map, List.getElem?_map]
    by_cases hk : k < a.fsize
    · rw [List.getElem?_range hk, Option.map_some, Option.map_some, Option.map_eq_map, Option.map_some]
      by_cases hnext : j + 1 = k
      · subst hnext
        rw [if_pos rfl, canId_clobber hbn hm hoffset (by omega), hkeep]
      · rw [if_neg hnext, canId_convert hbn hm (by omega) (by omega), hkeep]
    · rw [List.getElem?_eq_none (by rw [List.length_range]; omega)]
      rfl

end

/-! ## All signals -/

section
variable {h : Host} {signals : List CanSignal} {data : Data} {a : Frames} {i n : Nat}

/-- The number of signals that have a frame of their own. -/
def owns (signals : List CanSignal) : Nat := signals.countP (·.offset = 0)

theorem owns_cons (s : CanSignal) (signals : List CanSignal) :
    owns (s :: signals) = owns signals + if s.offset = 0 then 1 else 0 := by
  rw [owns, List.countP_cons]
  simp [owns]

theorem ownLoop_grows (i : Nat) (signals : List CanSignal) (a : Frames) :
    Grows a (ownLoop h data i signals a).1 := by
  induction signals generalizing i a with
  | nil => exact .refl a
  | cons s signals ih =>
    by_cases hown : s.offset = 0
    · by_cases hs : s.supported
      · obtain ⟨a', hstep, -, hgrows, -⟩ := @own_step h s hs hown data i signals a
        rw [hstep]
        exact hgrows.trans (ih ..)
      · obtain ⟨a', hstep, hgrows, -⟩ := @own_refused h s signals data a i hs hown
        rw [hstep]
        exact hgrows
    · rw [ownLoop, if_pos hown]
      exact ih ..

theorem sharedLoop_grows (i : Nat) (signals : List CanSignal) (a : Frames) :
    Grows a (sharedLoop h data i signals a).1 := by
  induction signals generalizing i a with
  | nil => exact .refl a
  | cons s signals ih =>
    by_cases hown : s.offset = 0
    · rw [sharedLoop, if_pos hown]
      exact ih ..
    · cases hj : (List.range a.fsize).find? fun j => s.id = a.canId h.endian j with
      | none =>
        rw [sharedLoop, if_neg hown, hj]
        exact ih ..
      | some j =>
        by_cases hs : s.supported
        · obtain ⟨a', bs, hstep, -, -, -, hgrows, -⟩ := shared_step hs hown hj data i signals
          rw [hstep]
          exact hgrows.trans (ih ..)
        · obtain ⟨a', hstep, hgrows, -⟩ :=
            @shared_refused h s signals data a i j hs hown hj
          rw [hstep]
          exact hgrows

theorem ownLoop_inArray (ha : InArray n a) (hn : a.fsize + owns signals ≤ n) :
    InArray n (ownLoop h data i signals a).1 := by
  induction signals generalizing i a with
  | nil => exact ha
  | cons s signals ih =>
    rw [owns_cons] at hn
    by_cases hown : s.offset = 0
    · rw [if_pos hown] at hn
      by_cases hs : s.supported
      · obtain ⟨a', hstep, hfsize, -, -, hin⟩ := @own_step h s hs hown data i signals a
        rw [hstep]
        exact ih (hin n ha (by omega)).1 (by omega)
      · obtain ⟨a', hstep, -, hin⟩ := @own_refused h s signals data a i hs hown
        rw [hstep]
        exact hin n ha (by omega)
    · rw [ownLoop, if_pos hown]
      rw [if_neg hown] at hn
      exact ih ha hn

theorem ownLoop_supported (hsup : ∀ s ∈ signals, s.offset = 0 → s.supported) :
    (ownLoop h data i signals a).2 = true ∧
      (ownLoop h data i signals a).1.fsize = a.fsize + owns signals ∧
      (∀ j, a.fsize ≤ j → j < a.fsize + owns signals →
        j ∈ (ownLoop h data i signals a).1.touched) ∧
      (InArray n a → a.fsize + owns signals ≤ n →
        idList h.endian (ownLoop h data i signals a).1 =
          idList h.endian a ++ ownIds signals) := by
  induction signals generalizing i a with
  | nil => exact ⟨rfl, rfl, fun j hle hlt => absurd hlt (by simpa [owns] using hle),
      fun _ _ => (List.append_nil _).symm⟩
  | cons s signals ih =>
    have hrest : ∀ s ∈ signals, s.offset = 0 → s.supported :=
      fun s hs => hsup s (List.mem_cons_of_mem _ hs)
    rw [owns_cons]
    by_cases hown : s.offset = 0
    · obtain ⟨a', hstep, hfsize, -, htouched, hin⟩ :=
        @own_step h s (hsup s (by simp) hown) hown data i signals a
      obtain ⟨htrue, hcount, hall, hids⟩ := @ih a' (i + 1) hrest
      rw [hstep, if_pos hown]
      refine ⟨htrue, by omega, fun j hle hlt => ?_, fun ha hn => ?_⟩
      · obtain hj | hj := Nat.eq_or_lt_of_le hle
        · rw [← hj]
          exact (ownLoop_grows _ _ a').touched _ htouched
        · exact hall j (by omega) (by omega)
      · obtain ⟨ha', hids'⟩ := hin n ha (by omega)
        rw [hids ha' (by omega), hids', ownIds, ownIds,
          List.filter_cons_of_pos (by simpa using hown), List.map_cons, List.append_assoc]
        rfl
    · rw [ownLoop, if_pos hown, if_neg hown, ownIds, List.filter_cons_of_neg (by simpa using hown)]
      exact ih hrest

theorem ownLoop_refused (href : ∃ s ∈ signals, s.offset = 0 ∧ ¬ s.supported) :
    (ownLoop h data i signals a).2 = false := by
  induction signals generalizing i a with
  | nil =>
    obtain ⟨s, hs, -⟩ := href
    cases hs
  | cons s signals ih =>
    by_cases hown : s.offset = 0
    · by_cases hs : s.supported
      · obtain ⟨a', hstep, -⟩ := @own_step h s hs hown data i signals a
        rw [hstep]
        apply ih
        obtain ⟨t, ht, ht0, htsup⟩ := href
        rcases List.mem_cons.mp ht with rfl | ht
        · exact absurd hs htsup
        · exact ⟨t, ht, ht0, htsup⟩
      · obtain ⟨a', hstep, -⟩ := @own_refused h s signals data a i hs hown
        rw [hstep]
    · rw [ownLoop, if_pos hown]
      apply ih
      obtain ⟨t, ht, ht0, htsup⟩ := href
      rcases List.mem_cons.mp ht with rfl | ht
      · exact absurd ht0 hown
      · exact ⟨t, ht, ht0, htsup⟩

/-- There is room for what the signals that share a frame may write. -/
def Room (n : Nat) (a : Frames) (signals : List CanSignal) : Prop :=
  a.fsize ≤ n ∧ ∀ s ∈ signals, s.offset ≠ 0 → s.supported →
    16 * a.fsize + s.offset + s.width ≤ 16 * n + 8

theorem Room.tail {s : CanSignal} {a' : Frames} (hroom : Room n a (s :: signals))
    (hfsize : a'.fsize = a.fsize) : Room n a' signals := by
  rw [Room, hfsize]
  exact ⟨hroom.1, fun t ht => hroom.2 t (List.mem_cons_of_mem _ ht)⟩

theorem sharedLoop_inArray (ha : InArray n a) (hroom : Room n a signals) :
    InArray n (sharedLoop h data i signals a).1 := by
  induction signals generalizing i a with
  | nil => exact ha
  | cons s signals ih =>
    by_cases hown : s.offset = 0
    · rw [sharedLoop, if_pos hown]
      exact ih ha (hroom.tail rfl)
    · cases hj : (List.range a.fsize).find? fun j => s.id = a.canId h.endian j with
      | none =>
        rw [sharedLoop, if_neg hown, hj]
        exact ih ha (hroom.tail rfl)
      | some j =>
        by_cases hs : s.supported
        · obtain ⟨a', bs, hstep, -, -, hfsize, -, hin⟩ := shared_step hs hown hj data i signals
          rw [hstep]
          exact ih (hin n ha hroom.1 (hroom.2 s (by simp) hown hs)).1 (hroom.tail hfsize)
        · obtain ⟨a', hstep, -, hin⟩ := @shared_refused h s signals data a i j hs hown hj
          rw [hstep]
          exact hin n ha hroom.1

theorem FitsPayload.overrun {s : CanSignal} {bs : List Byte} (hfits : FitsPayload (s :: signals))
    (hlen : bs.length = s.width - (8 - s.offset)) : bs = [] := by
  have hend := hfits s List.mem_cons_self
  apply List.eq_nil_of_length_eq_zero
  omega

theorem modify_clobber_nil (e : Endian) (ids : List (BitVec 32)) (j : Nat) :
    ids.modify j (clobber e []) = ids := by
  rw [funext (clobber_nil e)]
  exact List.modify_id j ids

theorem sharedLoop_reached (ha : InArray n a) (hroom : Room n a signals)
    (hoffset : ∀ s ∈ signals, s.offset ≤ 8) :
    ((sharedLoop h data i signals a).2 = true ↔
      reached h data i signals (idList h.endian a) = false) ∧
    ((sharedLoop h data i signals a).2 = true →
      (sharedLoop h data i signals a).1.fsize = a.fsize ∧
        (FitsPayload signals →
          idList h.endian (sharedLoop h data i signals a).1 = idList h.endian a)) := by
  induction signals generalizing i a with
  | nil => exact ⟨iff_of_true rfl rfl, fun _ => ⟨rfl, fun _ => rfl⟩⟩
  | cons s signals ih =>
    have hrest : ∀ s ∈ signals, s.offset ≤ 8 := fun t ht => hoffset t (List.mem_cons_of_mem _ ht)
    have htail (hfits : FitsPayload (s :: signals)) : FitsPayload signals :=
      fun t ht => hfits t (List.mem_cons_of_mem _ ht)
    by_cases hown : s.offset = 0
    · obtain ⟨hiff, hsame⟩ := @ih a (i + 1) ha (hroom.tail rfl) hrest
      rw [sharedLoop, if_pos hown, reached, if_pos hown]
      exact ⟨hiff, fun hok => ⟨(hsame hok).1, fun hfits => (hsame hok).2 (htail hfits)⟩⟩
    · rw [reached, if_neg hown, ← find_idList]
      cases hj : (List.range a.fsize).find? fun j => s.id = a.canId h.endian j with
      | none =>
        obtain ⟨hiff, hsame⟩ := @ih a (i + 1) ha (hroom.tail rfl) hrest
        rw [sharedLoop, if_neg hown, hj]
        exact ⟨hiff, fun hok => ⟨(hsame hok).1, fun hfits => (hsame hok).2 (htail hfits)⟩⟩
      | some j =>
        by_cases hs : s.supported
        · obtain ⟨a', bs, hstep, hover, hlen, hfsize, -, hin⟩ :=
            shared_step hs hown hj data i signals
          obtain ⟨ha', hids⟩ := hin n ha hroom.1 (hroom.2 s (by simp) hown hs)
          obtain ⟨hiff, hsame⟩ := @ih a' (i + 1) ha' (hroom.tail hfsize) hrest
          have hids := hids (hoffset s (by simp))
          rw [hids] at hiff hsame
          rw [hstep, hover]
          refine ⟨hiff, fun hok => ⟨(hsame hok).1.trans hfsize, fun hfits => ?_⟩⟩
          rw [(hsame hok).2 (htail hfits), hfits.overrun hlen, modify_clobber_nil]
        · obtain ⟨a', hstep, -⟩ := @shared_refused h s signals data a i j hs hown hj
          rw [hstep, overrun_unsupported hs]
          exact ⟨iff_of_false nofun nofun, nofun⟩

theorem sharedLoop_supported (hsup : ∀ s ∈ signals, s.offset ≠ 0 → s.supported) :
    (sharedLoop h data i signals a).2 = true ∧
      (sharedLoop h data i signals a).1.fsize = a.fsize := by
  induction signals generalizing i a with
  | nil => exact ⟨rfl, rfl⟩
  | cons s signals ih =>
    have hrest : ∀ s ∈ signals, s.offset ≠ 0 → s.supported :=
      fun s hs => hsup s (List.mem_cons_of_mem _ hs)
    by_cases hown : s.offset = 0
    · rw [sharedLoop, if_pos hown]
      exact ih hrest
    · cases hj : (List.range a.fsize).find? fun j => s.id = a.canId h.endian j with
      | none =>
        rw [sharedLoop, if_neg hown, hj]
        exact ih hrest
      | some j =>
        obtain ⟨a', bs, hstep, -, -, hfsize, -⟩ :=
          shared_step (hsup s (by simp) hown) hown hj data i signals
        rw [hstep, ← hfsize]
        exact ih hrest

theorem reached_fits (hfits : FitsPayload signals) {ids : List (BitVec 32)} :
    reached h data i signals ids = false ↔
      ∀ s ∈ signals, s.offset ≠ 0 → s.id ∈ ids → s.supported := by
  induction signals generalizing i with
  | nil => exact iff_of_true rfl nofun
  | cons s signals ih =>
    have hrest := @ih (i + 1) fun t ht => hfits t (List.mem_cons_of_mem _ ht)
    rw [List.forall_mem_cons, reached, ← hrest]
    by_cases hown : s.offset = 0
    · rw [if_pos hown, iff_and_self]
      exact fun _ hne => absurd hown hne
    · rw [if_neg hown]
      cases hj : ids.findIdx? fun id => s.id = id with
      | none =>
        have hno : s.id ∉ ids := by
          intro hmem
          exact of_decide_eq_false (List.findIdx?_eq_none_iff.mp hj s.id hmem) rfl
        rw [iff_and_self]
        exact fun _ _ hmem => absurd hmem hno
      | some j =>
        obtain ⟨hlt, hid, -⟩ := List.findIdx?_eq_some_iff_getElem.mp hj
        have hmem : s.id ∈ ids := by
          rw [of_decide_eq_true hid]
          exact List.getElem_mem hlt
        by_cases hs : s.supported
        · obtain ⟨bs, hbs, hover, -⟩ := @overrun_supported h s hs (data i)
          rw [hover]
          simp only
          have hnil : bs.drop (8 - s.offset) = [] :=
            hfits.overrun (by rw [List.length_drop, hbs])
          rw [hnil, modify_clobber_nil, iff_and_self]
          exact fun _ _ _ => hs
        · rw [overrun_unsupported hs]
          exact iff_of_false nofun fun hall => hs (hall.1 hown hmem)

end

/-! ## A batch -/

section
variable {h : Host} {signals : List CanSignal} {data : Data} {smps : List Data} {a : Frames}
  {n nwrite : Nat}

theorem fill_grows (data : Data) (a : Frames) : Grows a (fill h signals data a).1 := by
  have hown := @ownLoop_grows h data 0 signals a
  rw [fill]
  split
  · next b heq =>
    rw [heq] at hown
    exact hown
  · next b heq =>
    rw [heq] at hown
    exact hown.trans (sharedLoop_grows ..)

theorem writeLoop_grows (smps : List Data) (nwrite : Nat) (a : Frames) :
    Grows a (writeLoop h signals smps nwrite a).frames := by
  induction smps generalizing nwrite a with
  | nil => exact .refl a
  | cons data smps ih =>
    have hfill := @fill_grows h signals data a
    rw [writeLoop]
    split
    · next b heq =>
      rw [heq] at hfill
      exact hfill
    · next b heq =>
      rw [heq] at hfill
      exact hfill.trans (ih ..)

theorem owns_le (signals : List CanSignal) : owns signals ≤ signals.length :=
  List.countP_le_length

theorem owns_lt {s : CanSignal} (hs : s ∈ signals) (hshared : s.offset ≠ 0) :
    owns signals < signals.length := by
  refine Nat.lt_of_le_of_ne (owns_le signals) fun heq => ?_
  exact hshared (by simpa using List.countP_eq_length.mp heq s hs)

theorem writeLoop_filled {b : Frames} (hfill : fill h signals data a = (b, true)) :
    writeLoop h signals (data :: smps) nwrite a =
      { writeLoop h signals smps (nwrite + 1) b with
        sent := b.written ++ (writeLoop h signals smps (nwrite + 1) b).sent } := by
  rw [writeLoop, hfill]

theorem fill_own (hsup : ∀ s ∈ signals, s.offset = 0 → s.supported) (data : Data) (a : Frames) :
    ∃ b, fill h signals data a = sharedLoop h data 0 signals b ∧
      b.fsize = a.fsize + owns signals ∧
      (∀ j, a.fsize ≤ j → j < a.fsize + owns signals → j ∈ b.touched) ∧
      (InArray n a → a.fsize + owns signals ≤ n → InArray n b ∧
        idList h.endian b = idList h.endian a ++ ownIds signals) := by
  obtain ⟨htrue, hfsize, htouched, hids⟩ := @ownLoop_supported h signals data a 0 n hsup
  have hinArray := @ownLoop_inArray h signals data a 0 n
  generalize hb : ownLoop h data 0 signals a = r at htrue hfsize htouched hids hinArray
  obtain ⟨b, ok⟩ := r
  cases htrue
  exact ⟨b, by rw [fill, hb], hfsize, htouched, fun ha hn => ⟨hinArray ha hn, hids ha hn⟩⟩

theorem room_of_fits (hfits : FitsPayload signals) (hn : a.fsize ≤ n) : Room n a signals := by
  refine ⟨hn, fun s hs _ _ => ?_⟩
  have hend := hfits s hs
  omega

theorem room_of_owns (hoffset : ∀ s ∈ signals, s.offset ≤ 8) (hfsize : a.fsize = owns signals) :
    Room signals.length a signals := by
  rw [Room, hfsize]
  refine ⟨owns_le signals, fun s hs hs0 hss => ?_⟩
  have hlt := owns_lt hs hs0
  have hwidth := (width_pos hss).2
  have hoff := hoffset s hs
  omega

theorem owns_calloc (signals : List CanSignal) :
    (Frames.calloc signals.length).fsize + owns signals ≤ signals.length := by
  rw [Frames.calloc, Nat.zero_add]
  exact owns_le signals

theorem fill_own_refused (href : ∃ s ∈ signals, s.offset = 0 ∧ ¬ s.supported) (data : Data)
    (a : Frames) : fill h signals data a = ((ownLoop h data 0 signals a).1, false) := by
  have hfalse := @ownLoop_refused h signals data a 0 href
  rw [fill]
  split
  · next b heq => rw [heq]
  · next b heq =>
    rw [heq] at hfalse
    cases hfalse

/-- The first sample of a batch, or the only one: it stays in the array, and has its frames unless it
is refused. -/
theorem fill_calloc (hoffset : ∀ s ∈ signals, s.offset ≤ 8) (data : Data) :
    (fill h signals data (.calloc signals.length)).1.Within signals.length ∧
      ((fill h signals data (.calloc signals.length)).2 = true ↔ ¬ Refused h signals data) ∧
      ((fill h signals data (.calloc signals.length)).2 = true →
        (fill h signals data (.calloc signals.length)).1.fsize = owns signals) := by
  by_cases href : ∃ s ∈ signals, s.offset = 0 ∧ ¬ s.supported
  · have hin := @ownLoop_inArray h signals data _ 0 _ (inArray_calloc signals.length)
      (owns_calloc signals)
    rw [fill_own_refused href]
    exact ⟨hin.within, iff_of_false nofun (not_not.mpr (.inl href)), nofun⟩
  · have hsup : ∀ s ∈ signals, s.offset = 0 → s.supported := by
      intro s hs hs0
      by_contra hno
      exact href ⟨s, hs, hs0, hno⟩
    obtain ⟨b, hfill, hfsize, -, hb⟩ := @fill_own h signals signals.length hsup data (.calloc _)
    have hbsize : b.fsize = owns signals := hfsize.trans (Nat.zero_add _)
    have hroom := room_of_owns hoffset hbsize
    obtain ⟨hin, hids⟩ := hb (inArray_calloc _) (owns_calloc signals)
    rw [show idList h.endian (Frames.calloc signals.length) = [] from rfl, List.nil_append] at hids
    obtain ⟨hiff, hsame⟩ := @sharedLoop_reached h signals data b 0 _ hin hroom hoffset
    rw [hids] at hiff
    rw [hfill]
    refine ⟨(sharedLoop_inArray hin hroom).within, ?_, fun hok => (hsame hok).1.trans hbsize⟩
    rw [hiff, Refused, or_iff_right href, Bool.not_eq_true]

theorem canWrite_refused (hoffset : ∀ s ∈ signals, s.offset ≤ 8) (href : Refused h signals data)
    (rest : List Data) : canWrite h signals (data :: rest) =
      ⟨(fill h signals data (.calloc signals.length)).1, [], none⟩ := by
  have hfalse := (@fill_calloc h signals hoffset data).2.1
  rw [canWrite, writeLoop]
  split
  · next b heq => rw [heq]
  · next b heq =>
    rw [heq] at hfalse
    exact absurd href (hfalse.mp rfl)

theorem canWrite_alone (hoffset : ∀ s ∈ signals, s.offset ≤ 8) (href : ¬ Refused h signals data) :
    (canWrite h signals [data]).sent.length = owns signals := by
  obtain ⟨-, hiff, hfsize⟩ := @fill_calloc h signals hoffset data
  generalize hfill : fill h signals data (.calloc signals.length) = r at hiff hfsize
  obtain ⟨b, ok⟩ := r
  obtain rfl : ok = true := hiff.mpr href
  have hsize : b.fsize = owns signals := hfsize rfl
  rw [canWrite, writeLoop_filled hfill]
  simp [writeLoop, Frames.written, hsize]

theorem concatenates_of_refused (hoffset : ∀ s ∈ signals, s.offset ≤ 8)
    (href : ∀ data ∈ smps, Refused h signals data) : Concatenates h signals smps := by
  cases smps with
  | nil => exact ⟨(inArray_calloc _).within, rfl⟩
  | cons data rest =>
    rw [Concatenates, canWrite_refused hoffset (href data (by simp))]
    refine ⟨(fill_calloc hoffset data).1, ?_⟩
    rw [eq_comm, List.flatMap_eq_nil_iff]
    intro d hd
    rw [canWrite_refused hoffset (href d hd)]

theorem not_concatenates_of_first (hoffset : ∀ s ∈ signals, s.offset ≤ 8)
    (hfirst : ∀ data ∈ smps.head?, Refused h signals data) (hsome : 0 < owns signals)
    (hother : ∃ data ∈ smps, ¬ Refused h signals data) : ¬ Concatenates h signals smps := by
  rintro ⟨-, hsent⟩
  obtain ⟨other, hmem, hother⟩ := hother
  have hnone : (canWrite h signals smps).sent = [] := by
    cases smps with
    | nil => cases hmem
    | cons data rest => rw [canWrite_refused hoffset (hfirst data rfl)]
  rw [hnone, eq_comm, List.flatMap_eq_nil_iff] at hsent
  have hlen := canWrite_alone hoffset hother
  rw [hsent other hmem] at hlen
  exact Nat.ne_of_lt hsome hlen

theorem canWrite_of_owns_zero (hzero : owns signals = 0) (smps : List Data) :
    (canWrite h signals smps).frames = .calloc signals.length ∧
      (canWrite h signals smps).sent = [] := by
  have hnone : ∀ s ∈ signals, s.offset ≠ 0 := by
    simpa [owns, List.countP_eq_zero] using hzero
  have hown (data : Data) (i : Nat) (a : Frames) : ∀ {ss : List CanSignal},
      (∀ s ∈ ss, s.offset ≠ 0) → ownLoop h data i ss a = (a, true) := by
    intro ss
    induction ss generalizing i with
    | nil => exact fun _ => rfl
    | cons s ss ih =>
      intro hss
      rw [ownLoop, if_pos (hss s (by simp))]
      exact ih (i + 1) fun t ht => hss t (List.mem_cons_of_mem _ ht)
  have hshared (data : Data) (i : Nat) {a : Frames} (ha : a.fsize = 0) : ∀ ss : List CanSignal,
      sharedLoop h data i ss a = (a, true) := by
    intro ss
    induction ss generalizing i with
    | nil => rfl
    | cons s ss ih =>
      have hrest := ih (i + 1)
      rw [sharedLoop, ha]
      split
      · exact hrest
      · exact hrest
  have hrun (smps : List Data) (nwrite : Nat) {a : Frames} (ha : a.fsize = 0) :
      (writeLoop h signals smps nwrite a).frames = a ∧
        (writeLoop h signals smps nwrite a).sent = [] := by
    induction smps generalizing nwrite with
    | nil => exact ⟨rfl, rfl⟩
    | cons data smps ih =>
      have hfill : fill h signals data a = (a, true) := by
        rw [fill, hown data 0 a hnone]
        exact hshared data 0 ha signals
      obtain ⟨hframes, hsent⟩ := ih (nwrite + 1)
      rw [writeLoop, hfill]
      refine ⟨hframes, ?_⟩
      simp only [hsent, Frames.written, ha, List.range_zero, List.map_nil, List.append_nil]
  exact hrun smps 0 rfl

theorem concatenates_of_owns_zero (hzero : owns signals = 0) : Concatenates h signals smps := by
  refine ⟨?_, ?_⟩
  · rw [(canWrite_of_owns_zero hzero smps).1]
    exact (inArray_calloc _).within
  · rw [(canWrite_of_owns_zero hzero smps).2, eq_comm, List.flatMap_eq_nil_iff]
    exact fun data _ => (canWrite_of_owns_zero hzero [data]).2

theorem length_sent_ge {Good : Frames → Prop}
    (hstep : ∀ data a, Good a → (fill h signals data a).1.Within n →
      (fill h signals data a).2 = true ∧
        (fill h signals data a).1.fsize = a.fsize + owns signals ∧ Good (fill h signals data a).1)
    (hgood : Good a) (hwithin : (writeLoop h signals smps nwrite a).frames.Within n) :
    smps.length * (a.fsize + owns signals) ≤ (writeLoop h signals smps nwrite a).sent.length := by
  induction smps generalizing nwrite a with
  | nil => simp
  | cons data smps ih =>
    have hgrows : Grows (fill h signals data a).1
        (writeLoop h signals (data :: smps) nwrite a).frames := by
      rw [writeLoop]
      split
      · next b heq =>
        rw [heq]
        exact .refl b
      · next b heq =>
        rw [heq]
        exact writeLoop_grows ..
    obtain ⟨htrue, hfsize, hgood'⟩ := hstep data a hgood (.of_grows hgrows hwithin)
    generalize hb : fill h signals data a = r at htrue hfsize hgood'
    obtain ⟨b, ok⟩ := r
    cases htrue
    rw [writeLoop_filled hb] at hwithin ⊢
    have hrest : smps.length * (b.fsize + owns signals) ≤
        (writeLoop h signals smps (nwrite + 1) b).sent.length := ih hgood' hwithin
    have hlen : b.written.length = a.fsize + owns signals := by
      rw [Frames.written, List.length_map, List.length_range, hfsize]
    have hmul : smps.length * (a.fsize + owns signals) ≤
        smps.length * (b.fsize + owns signals) := by
      apply Nat.mul_le_mul_left
      simp only at hfsize
      omega
    rw [List.length_append, hlen, List.length_cons, Nat.add_mul, Nat.one_mul]
    omega

/-- What the frames are known to have while no value runs over the end of a payload. -/
def Good (h : Host) (signals : List CanSignal) (a : Frames) : Prop :=
  InArray signals.length a ∧ ∀ id ∈ idList h.endian a, id ∈ ownIds signals

theorem fill_fits {data' : Data} (hfits : FitsPayload signals) (hsome : 0 < owns signals)
    (href : ¬ Refused h signals data') (hgood : Good h signals a)
    (hwithin : (fill h signals data a).1.Within signals.length) :
    (fill h signals data a).2 = true ∧ (fill h signals data a).1.fsize = a.fsize + owns signals ∧
      Good h signals (fill h signals data a).1 := by
  obtain ⟨ha, hids⟩ := hgood
  obtain ⟨hown, hreached⟩ := not_or.mp href
  rw [Bool.not_eq_true, reached_fits hfits] at hreached
  have hsup : ∀ s ∈ signals, s.offset = 0 → s.supported := by
    intro s hs hs0
    by_contra hno
    exact hown ⟨s, hs, hs0, hno⟩
  obtain ⟨b, hfill, hbfsize, htouched, hown⟩ := @fill_own h signals signals.length hsup data a
  rw [hfill] at hwithin ⊢
  have hroom : a.fsize + owns signals ≤ signals.length := by
    have hlast := (@sharedLoop_grows h data 0 signals b).touched (a.fsize + owns signals - 1)
      (htouched _ (by omega) (by omega))
    have hlt := hwithin.1 _ hlast
    omega
  obtain ⟨hb, hidList⟩ := hown ha hroom
  have hbids : ∀ id ∈ idList h.endian b, id ∈ ownIds signals := by
    rw [hidList]
    intro id hid
    exact (List.mem_append.mp hid).elim (hids id) fun hid => hid
  have hbroom : Room signals.length b signals := room_of_fits hfits (by omega)
  obtain ⟨hiff, hsame⟩ := @sharedLoop_reached h signals data b 0 _ hb hbroom fun s hs =>
    Nat.le_of_add_right_le (hfits s hs)
  have hok : (sharedLoop h data 0 signals b).2 = true := by
    rw [hiff, reached_fits hfits]
    exact fun s hs hshared hid => hreached s hs hshared (hbids _ hid)
  obtain ⟨hsize, hlist⟩ := hsame hok
  refine ⟨hok, hsize.trans hbfsize, sharedLoop_inArray hb hbroom, ?_⟩
  rw [hlist hfits]
  exact hbids

theorem good_calloc : Good h signals (.calloc signals.length) :=
  ⟨inArray_calloc _, fun _ hid => by cases hid⟩

theorem fill_supported (hsup : ∀ s ∈ signals, s.supported) :
    (fill h signals data a).2 = true ∧
      (fill h signals data a).1.fsize = a.fsize + owns signals := by
  obtain ⟨b, hfill, hfsize, -⟩ := @fill_own h signals 0 (fun s hs _ => hsup s hs) data a
  obtain ⟨hok, hsize⟩ := @sharedLoop_supported h signals data b 0 fun s hs _ => hsup s hs
  rw [hfill]
  exact ⟨hok, hsize.trans hfsize⟩

theorem not_concatenates {P : Frames → Prop} (hoffset : ∀ s ∈ signals, s.offset ≤ 8)
    (hstep : ∀ data a, P a → (fill h signals data a).1.Within signals.length →
      (fill h signals data a).2 = true ∧
        (fill h signals data a).1.fsize = a.fsize + owns signals ∧ P (fill h signals data a).1)
    (hP : P (.calloc signals.length)) (hsome : 0 < owns signals) (hmany : 1 < smps.length) :
    ¬ Concatenates h signals smps := by
  rintro ⟨hwithin, hsent⟩
  have halone (data : Data) : ∃ b, fill h signals data (.calloc signals.length) = (b, true) ∧
      b.fsize = owns signals ∧ P b := by
    obtain ⟨htrue, hfsize, hb⟩ := hstep data _ hP (fill_calloc hoffset data).1
    generalize fill h signals data (.calloc signals.length) = r at htrue hfsize hb
    obtain ⟨b, ok⟩ := r
    cases htrue
    exact ⟨b, rfl, hfsize.trans (Nat.zero_add _), hb⟩
  have hone (data : Data) : (canWrite h signals [data]).sent.length = owns signals := by
    obtain ⟨b, hfill, hfsize, -⟩ := halone data
    rw [canWrite, writeLoop_filled hfill]
    simp [writeLoop, Frames.written, hfsize]
  have hall : (canWrite h signals smps).sent.length = smps.length * owns signals := by
    rw [hsent, List.length_flatMap]
    simp [hone]
  cases smps with
  | nil => simp at hmany
  | cons data rest =>
    obtain ⟨b, hfill, hfsize, hb⟩ := halone data
    rw [canWrite, writeLoop_filled hfill] at hwithin hall
    have hrest := length_sent_ge hstep hb hwithin
    have htwice : rest.length * (b.fsize + owns signals) =
        rest.length * owns signals + rest.length * owns signals := by
      rw [hfsize, Nat.mul_add]
    have hpos : 0 < rest.length * owns signals := by
      apply Nat.mul_pos _ hsome
      simpa using hmany
    rw [List.length_append, List.length_cons, Nat.add_mul, Nat.one_mul, Frames.written,
      List.length_map, List.length_range, hfsize] at hall
    omega

end

theorem concatenates_of_short {h : Host} {signals : List CanSignal} {smps : List Data}
    (hoffset : ∀ s ∈ signals, s.offset ≤ 8) (hshort : smps.length ≤ 1) :
    Concatenates h signals smps := by
  match smps, hshort with
  | [], _ => exact ⟨(inArray_calloc _).within, rfl⟩
  | [data], _ =>
    refine ⟨?_, (List.flatMap_singleton ..).symm⟩
    have hfirst := (@fill_calloc h signals hoffset data).1
    rw [canWrite, writeLoop]
    split
    · next b heq =>
      rw [heq] at hfirst
      exact hfirst
    · next b heq =>
      rw [heq] at hfirst
      exact hfirst

/-- For every layout and every batch: the frames are those of each sample alone, and no write is
beyond the array, if there is one sample at most, or no signal at offset 0, or each sample is refused.
Only then, where the values end within their payloads, or all signals with an offset can be converted,
or the first sample is refused. -/
theorem concatenates_iff (h : Host) {signals : List CanSignal}
    (hoffset : ∀ s ∈ signals, s.offset ≤ 8) (smps : List Data) :
    (smps.length ≤ 1 ∨ owns signals = 0 ∨ (∀ data ∈ smps, Refused h signals data) →
      Concatenates h signals smps) ∧
    (FitsPayload signals ∨ (∀ s ∈ signals, s.offset ≠ 0 → s.supported) ∨
        (∀ data ∈ smps.head?, Refused h signals data) →
      Concatenates h signals smps →
        smps.length ≤ 1 ∨ owns signals = 0 ∨ ∀ data ∈ smps, Refused h signals data) := by
  constructor
  · rintro (hshort | hzero | href)
    · exact concatenates_of_short hoffset hshort
    · exact concatenates_of_owns_zero hzero
    · exact concatenates_of_refused hoffset href
  · intro hregular hcat
    by_contra hnot
    obtain ⟨hmany, hnot⟩ := not_or.mp hnot
    obtain ⟨hzero, hother⟩ := not_or.mp hnot
    push Not at hother
    obtain ⟨data', hmem, href⟩ := hother
    have hsome : 0 < owns signals := Nat.pos_of_ne_zero hzero
    obtain hfits | hsup | hfirst := hregular
    · refine @not_concatenates h signals smps (Good h signals) hoffset
        (fun data a hgood hwithin => ?_) good_calloc hsome (Nat.not_le.mp hmany) hcat
      exact fill_fits hfits hsome href hgood hwithin
    · have hall : ∀ s ∈ signals, s.supported := by
        intro s hs
        by_cases hown : s.offset = 0
        · by_contra hno
          exact href (.inl ⟨s, hs, hown, hno⟩)
        · exact hsup s hs hown
      refine @not_concatenates h signals smps (fun _ => True) hoffset (fun data a _ _ => ?_) trivial
        hsome (Nat.not_le.mp hmany) hcat
      obtain ⟨hok, hsize⟩ := @fill_supported h signals data a hall
      exact ⟨hok, hsize, trivial⟩
    · exact not_concatenates_of_first hoffset hfirst hsome ⟨data', hmem, href⟩ hcat

def sharedFrame : List CanSignal := [⟨1, 0, 4, .integer⟩, ⟨1, 4, 4, .integer⟩]

/-- The second value runs over the end, and the third cannot be converted. -/
def overrunFrame : List CanSignal :=
  [⟨1, 0, 4, .integer⟩, ⟨1, 8, 8, .integer⟩, ⟨1, 4, 3, .float⟩]

def constant (v : Value) : Data := fun _ => v

theorem concatenates_overrun :
    Concatenates littleHost overrunFrame [constant 7, constant 8] := by
  refine (concatenates_iff littleHost (by decide) _).1 (.inr (.inr ?_))
  rw [List.forall_mem_cons, List.forall_mem_singleton]
  exact ⟨by decide, by decide⟩

/-- The first frame goes out a second time, with more bytes than it can have. -/
theorem not_concatenates_shared :
    ¬ Concatenates littleHost sharedFrame [constant 7, constant 8] ∧
      (canWrite littleHost sharedFrame [constant 7, constant 8]).sent =
        [[1, 0, 0, 0, 8, 0, 0, 0, 7, 0, 0, 0, 7, 0, 0, 0],
          [1, 0, 0, 0, 12, 0, 0, 0, 7, 0, 0, 0, 8, 0, 0, 0],
          [1, 0, 0, 0, 4, 0, 0, 0, 8, 0, 0, 0, 0, 0, 0, 0]] := by
  refine ⟨?_, by decide⟩
  refine @not_concatenates littleHost sharedFrame _ (fun _ => True) (by decide)
    (fun data a _ _ => ?_) trivial (by decide) (by decide)
  obtain ⟨hok, hsize⟩ := @fill_supported littleHost sharedFrame data a (by decide)
  exact ⟨hok, hsize, trivial⟩

end VillasNode.Can
