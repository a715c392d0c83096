import VillasNode.Lib.ByteOrder

/-!
# The wire format of protocol buffers

Fields with their numbers, one behind the other. What is encoded is decoded
again, and a part of an encoding has fewer fields, if any. Numbers and lengths
are not limited.
-/

namespace WireFormat

open ByteOrder

abbrev Reader (α : Type) := List Byte → Option (α × List Byte)

/-- The reader takes these bytes as `a`, and nothing from a part of them. -/
structure Encodes {α : Type} (read : Reader α) (bytes : List Byte) (a : α) : Prop where
  whole : ∀ s, read (bytes ++ s) = some (a, s)
  cut : ∀ k < bytes.length, read (bytes.take k) = none

def Reader.bind {α β : Type} (read : Reader α) (next : α → Reader β) : Reader β := fun s =>
  (read s).bind fun (a, s) => next a s

def Reader.map {α β : Type} (f : α → β) (read : Reader α) : Reader β := fun s =>
  (read s).map fun (a, s) => (f a, s)

section
variable {α β : Type} {read : Reader α} {bytes : List Byte} {a : α}

theorem Encodes.map (h : Encodes read bytes a) (f : α → β) : Encodes (read.map f) bytes (f a) :=
  ⟨fun s => by rw [Reader.map, h.whole, Option.map_some],
    fun k hk => by rw [Reader.map, h.cut k hk, Option.map_none]⟩

theorem Encodes.bind {next : α → Reader β} {bytes' : List Byte} {b : β} (h : Encodes read bytes a)
    (h' : Encodes (next a) bytes' b) : Encodes (read.bind next) (bytes ++ bytes') b := by
  constructor
  · intro s
    rw [Reader.bind, List.append_assoc, h.whole, Option.bind_some]
    exact h'.whole s
  · intro k hk
    rw [List.length_append] at hk
    rw [Reader.bind]
    by_cases hlt : k < bytes.length
    · rw [List.take_append_of_le_length (Nat.le_of_lt hlt), h.cut k hlt, Option.bind_none]
    · obtain ⟨j, rfl⟩ := Nat.exists_eq_add_of_le (Nat.le_of_not_lt hlt)
      rw [List.take_length_add_append, h.whole, Option.bind_some]
      exact h'.cut j (by omega)

end

/-! ## Numbers -/

/-- Seven bits for each byte, the lowest ones first. The first number is at least the second one. -/
def varintBytes : Nat → Nat → List Byte
  | 0, _ => [0]
  | k + 1, n =>
    if n < 128 then [BitVec.ofNat 8 n] else BitVec.ofNat 8 (n % 128 + 128) :: varintBytes k (n / 128)

def varint (n : Nat) : List Byte := varintBytes n n

def readVarint : Reader Nat
  | [] => none
  | b :: s =>
    if b.toNat < 128 then some (b.toNat, s)
    else (readVarint s).map fun (n, s) => (b.toNat - 128 + 128 * n, s)

theorem encodes_varintBytes {k n : Nat} (h : n ≤ k) : Encodes readVarint (varintBytes k n) n := by
  induction k generalizing n with
  | zero =>
    obtain rfl : n = 0 := Nat.le_zero.mp h
    refine ⟨fun s => rfl, fun k hk => ?_⟩
    obtain rfl : k = 0 := Nat.lt_one_iff.mp hk
    rfl
  | succ k ih =>
    rw [varintBytes]
    split_ifs with hsmall
    · have hb : (BitVec.ofNat 8 n).toNat = n := by
        rw [BitVec.toNat_ofNat]
        omega
      refine ⟨fun s => by rw [List.singleton_append, readVarint, hb, if_pos hsmall], fun k hk => ?_⟩
      obtain rfl : k = 0 := Nat.lt_one_iff.mp hk
      rfl
    · have hb : (BitVec.ofNat 8 (n % 128 + 128)).toNat = n % 128 + 128 := by
        rw [BitVec.toNat_ofNat]
        omega
      obtain ⟨hwhole, hcut⟩ := ih (n := n / 128) (by omega)
      constructor
      · intro s
        rw [List.cons_append, readVarint, hb, if_neg (by omega), hwhole, Option.map_some]
        dsimp only
        rw [show n % 128 + 128 - 128 + 128 * (n / 128) = n by omega]
      · intro j hj
        cases j with
        | zero => rfl
        | succ j =>
          rw [List.length_cons] at hj
          rw [List.take_succ_cons, readVarint, hb, if_neg (by omega), hcut j (by omega), Option.map_none]

theorem encodes_varint (n : Nat) : Encodes readVarint (varint n) n := encodes_varintBytes (Nat.le_refl n)

theorem varint_ne_nil (n : Nat) : varint n ≠ [] := by
  unfold varint
  cases n with
  | zero => exact List.cons_ne_nil _ _
  | succ n =>
    rw [varintBytes]
    split_ifs <;> exact List.cons_ne_nil _ _

def readBytes (n : Nat) : Reader (List Byte) := fun s =>
  if n ≤ s.length then some (s.take n, s.drop n) else none

theorem encodes_bytes (bytes : List Byte) : Encodes (readBytes bytes.length) bytes bytes := by
  constructor
  · intro s
    rw [readBytes, if_pos (by rw [List.length_append]; omega), List.take_left, List.drop_left]
  · intro k hk
    rw [readBytes, if_neg (by rw [List.length_take]; omega)]

/-! ## Fields -/

inductive Payload where
  | varint (v : BitVec 64)
  | fixed64 (v : BitVec 64)
  | bytes (bytes : List Byte)
  | fixed32 (v : BitVec 32)
deriving DecidableEq

structure Field where
  number : Nat
  payload : Payload
deriving DecidableEq

def Payload.wireType : Payload → Nat
  | .varint _ => 0
  | .fixed64 _ => 1
  | .bytes _ => 2
  | .fixed32 _ => 5

def Payload.encode : Payload → List Byte
  | .varint v => WireFormat.varint v.toNat
  | .fixed64 v => store .little 64 v
  | .bytes bs => WireFormat.varint bs.length ++ bs
  | .fixed32 v => store .little 32 v

def readPayload : Nat → Reader Payload
  | 0 => Reader.map (fun n => .varint (BitVec.ofNat 64 n)) readVarint
  | 1 => (readBytes 8).map fun bytes => .fixed64 (load .little 64 bytes)
  | 2 => (Reader.bind readVarint readBytes).map Payload.bytes
  | 5 => (readBytes 4).map fun bytes => .fixed32 (load .little 32 bytes)
  | _ => fun _ => none

def Field.encode (field : Field) : List Byte :=
  varint (8 * field.number + field.payload.wireType) ++ field.payload.encode

def readField : Reader Field :=
  Reader.bind readVarint fun tag => (readPayload (tag % 8)).map fun payload => ⟨tag / 8, payload⟩

theorem encodes_payload (payload : Payload) :
    Encodes (readPayload payload.wireType) payload.encode payload := by
  cases payload with
  | varint v =>
    have h := (encodes_varint v.toNat).map fun n => Payload.varint (BitVec.ofNat 64 n)
    rw [BitVec.ofNat_toNat, BitVec.setWidth_eq] at h
    exact h
  | fixed64 v =>
    have h := (encodes_bytes (store .little 64 v)).map fun bytes => Payload.fixed64 (load .little 64 bytes)
    rw [load_store (by decide), store_length] at h
    exact h
  | bytes bytes => exact ((encodes_varint bytes.length).bind (encodes_bytes bytes)).map Payload.bytes
  | fixed32 v =>
    have h := (encodes_bytes (store .little 32 v)).map fun bytes => Payload.fixed32 (load .little 32 bytes)
    rw [load_store (by decide), store_length] at h
    exact h

theorem encodes_field (field : Field) : Encodes readField field.encode field := by
  have hlt : field.payload.wireType < 8 := by cases field.payload <;> simp [Payload.wireType]
  apply (encodes_varint _).bind
  rw [show (8 * field.number + field.payload.wireType) % 8 = field.payload.wireType by omega,
    show (8 * field.number + field.payload.wireType) / 8 = field.number by omega]
  exact (encodes_payload field.payload).map fun payload => Field.mk field.number payload

theorem encode_ne_nil (field : Field) : field.encode ≠ [] := by
  rw [Field.encode]
  exact List.append_ne_nil_of_left_ne_nil (varint_ne_nil _) _

/-! ## Messages -/

def encodeFields (fields : List Field) : List Byte := fields.flatMap Field.encode

/-- Fields up to the end, at most as many as the first number. -/
def decodeFrom : Nat → List Byte → Option (List Field)
  | _, [] => some []
  | 0, _ :: _ => none
  | k + 1, b :: s => (readField (b :: s)).bind fun (field, s) => (decodeFrom k s).map (field :: ·)

def decodeFields (bytes : List Byte) : Option (List Field) := decodeFrom bytes.length bytes

theorem decodeFrom_succ {s : List Byte} (hs : s ≠ []) (k : Nat) :
    decodeFrom (k + 1) s = (readField s).bind fun (field, s) => (decodeFrom k s).map (field :: ·) := by
  obtain ⟨b, s, rfl⟩ := List.exists_cons_of_ne_nil hs
  rfl

theorem decodeFrom_encodeFields (fields : List Field) {k : Nat}
    (hk : (encodeFields fields).length ≤ k) : decodeFrom k (encodeFields fields) = some fields := by
  induction fields generalizing k with
  | nil => cases k <;> rfl
  | cons field fields ih =>
    have hpos := List.length_pos_iff.mpr (encode_ne_nil field)
    have hcons : encodeFields (field :: fields) = field.encode ++ encodeFields fields := rfl
    rw [hcons] at hk ⊢
    rw [List.length_append] at hk
    obtain ⟨k, rfl⟩ := Nat.exists_eq_add_one_of_ne_zero (show k ≠ 0 by omega)
    rw [decodeFrom_succ (List.append_ne_nil_of_left_ne_nil (encode_ne_nil field) _),
      (encodes_field field).whole, Option.bind_some]
    dsimp only
    rw [ih (by omega), Option.map_some]

theorem decodeFields_encodeFields (fields : List Field) :
    decodeFields (encodeFields fields) = some fields := decodeFrom_encodeFields fields (Nat.le_refl _)

/-- A part of an encoding has fewer fields, or ends in one of them. -/
theorem decodeFrom_cut {fields fields' : List Field} {k n : Nat}
    (hn : n < (encodeFields fields).length)
    (h : decodeFrom k ((encodeFields fields).take n) = some fields') : fields'.length < fields.length := by
  induction fields generalizing fields' k n with
  | nil => cases hn
  | cons field fields ih =>
    have hcons : encodeFields (field :: fields) = field.encode ++ encodeFields fields := rfl
    rw [hcons] at hn h
    rw [List.length_append] at hn
    by_cases hzero : n = 0
    · subst hzero
      rw [List.take_zero] at h
      obtain rfl : [] = fields' := by cases k <;> simpa [decodeFrom] using h
      exact Nat.succ_pos _
    have hpos := List.length_pos_iff.mpr (encode_ne_nil field)
    have hne : (field.encode ++ encodeFields fields).take n ≠ [] := by
      simp [hzero, encode_ne_nil]
    cases k with
    | zero =>
      obtain ⟨b, s, hs⟩ := List.exists_cons_of_ne_nil hne
      rw [hs] at h
      cases h
    | succ k =>
      rw [decodeFrom_succ hne] at h
      by_cases hlt : n < field.encode.length
      · rw [List.take_append_of_le_length (Nat.le_of_lt hlt), (encodes_field field).cut n hlt] at h
        cases h
      · obtain ⟨j, rfl⟩ := Nat.exists_eq_add_of_le (Nat.le_of_not_lt hlt)
        rw [List.take_length_add_append, (encodes_field field).whole, Option.bind_some] at h
        obtain ⟨rest, hrest, rfl⟩ := Option.map_eq_some_iff.mp h
        exact Nat.succ_lt_succ (ih (by omega) hrest)

theorem decodeFields_cut {fields fields' : List Field} {n : Nat} (hn : n < (encodeFields fields).length)
    (h : decodeFields ((encodeFields fields).take n) = some fields') :
    fields'.length < fields.length := decodeFrom_cut hn h

end WireFormat
