import VillasNode.Lib.ByteOrder
import VillasNode.Sample.Model

/-!
# The format villas.binary

`lib/formats/villas_binary.cpp` and `lib/formats/msg.cpp`, in the variants for
the network and for the web, on hosts of either byte order. The conversions
between `double` and `float` are any two functions.
-/

namespace VillasNode

open ByteOrder

inductive SignalType where
  | invalid
  | float
  | integer
  | boolean
  | complex
deriving DecidableEq

/-- `double` to `float` and back, on the bits. -/
structure FloatConv where
  narrow : Value → BitVec 32
  widen : BitVec 32 → Value

/-! ## Messages -/

structure Msg where
  version : BitVec 4
  type : BitVec 2
  reserved1 : BitVec 2
  id : BitVec 8
  length : BitVec 16
  sequence : BitVec 32
  sec : BitVec 32
  nsec : BitVec 32
  data : List (BitVec 32)
deriving DecidableEq

def msgVersion : BitVec 4 := 2
def msgTypeData : BitVec 2 := 0

def msgLen (values : Nat) : Nat := 16 + 4 * values

/-- The message in memory. The bit fields come in the same places on both kinds of hosts. -/
def Msg.bytes (e : Endian) (m : Msg) : List Byte :=
  [m.version ++ m.type ++ m.reserved1, m.id] ++ (store e 16 m.length ++ (store e 32 m.sequence ++
    (store e 32 m.sec ++ (store e 32 m.nsec ++ storeAll e 32 m.data))))

/-- The message with `values` values at the front of these bytes. -/
def Msg.load (e : Endian) (values : Nat) (bs : List Byte) : Msg :=
  let first := bs.getD 0 0
  { version := first.extractLsb' 4 4
    type := first.extractLsb' 2 2
    reserved1 := first.extractLsb' 0 2
    id := bs.getD 1 0
    length := ByteOrder.load e 16 ((bs.drop 2).take 2)
    sequence := ByteOrder.load e 32 ((bs.drop 4).take 4)
    sec := ByteOrder.load e 32 ((bs.drop 8).take 4)
    nsec := ByteOrder.load e 32 ((bs.drop 12).take 4)
    data := loadAll e 32 values (bs.drop 16) }

def convertData (f : BitVec 32 → BitVec 32) (n : Nat) (data : List (BitVec 32)) : List (BitVec 32) :=
  (data.take n).map f ++ data.drop n

def msgHdrHton (e : Endian) (m : Msg) : Msg :=
  { m with length := hton e 16 m.length, sequence := hton e 32 m.sequence
           sec := hton e 32 m.sec, nsec := hton e 32 m.nsec }

def msgHdrNtoh (e : Endian) (m : Msg) : Msg :=
  { m with length := ntoh e 16 m.length, sequence := ntoh e 32 m.sequence
           sec := ntoh e 32 m.sec, nsec := ntoh e 32 m.nsec }

def msgHton (e : Endian) (m : Msg) : Msg :=
  msgHdrHton e { m with data := convertData (hton e 32) m.length.toNat m.data }

def msgNtoh (e : Endian) (m : Msg) : Msg :=
  let m := msgHdrNtoh e m
  { m with data := convertData (ntoh e 32) m.length.toNat m.data }

def msgVerify (m : Msg) : Int :=
  if m.version ≠ msgVersion then -1
  else if m.type ≠ msgTypeData then -2
  else if m.reserved1 ≠ 0 then -3
  else 0

variable (conv : FloatConv)

def fromWord : SignalType → BitVec 32 → Option Value
  | .float, w => some (conv.widen w)
  | .integer, w => some (w.setWidth 64)
  | _, _ => none

def toWord : SignalType → Value → Option (BitVec 32)
  | .float, v => some (conv.narrow v)
  | .integer, v => some (v.setWidth 32)
  | _, _ => none

def readValues (i : Nat) : List (SignalType × BitVec 32) → Payload → Payload × Bool
  | [], smp => (smp, true)
  | (t, w) :: vs, smp =>
    match fromWord conv t w with
    | none => (smp, false)
    | some v => readValues (i + 1) vs (smp.setData i v)

def writeValues (sigs : List SignalType) (data : Nat → Value) (i : Nat) :
    Nat → Option (List (BitVec 32))
  | 0 => some []
  | n + 1 =>
    match sigs[i]? with
    | none => none
    | some t =>
      match toWord conv t (data i) with
      | none => none
      | some w => (writeValues sigs data (i + 1) n).map (w :: ·)

/-- `msg_to_sample`, with the number it returns. -/
def msgToSample (sigs : List SignalType) (m : Msg) (capacity : Nat) (smp : Payload) : Payload × Int :=
  if msgVerify m ≠ 0 then (smp, msgVerify m)
  else
    let len := min (min m.length.toNat capacity) sigs.length
    match readValues conv 0 ((sigs.zip m.data).take len) smp with
    | (smp, false) => (smp, -1)
    | (smp, true) =>
      ({ smp with flags := SampleFlags.hasTsOrigin ||| SampleFlags.hasSequence ||| SampleFlags.hasData
                  length := len
                  sequence := m.sequence.setWidth 64
                  origin := ⟨m.sec.setWidth 64, m.nsec.setWidth 64⟩ }, 0)

/-- `msg_from_sample`. `none` stands for `-1`. -/
def msgFromSample (sigs : List SignalType) (smp : Payload) : Option Msg :=
  (writeValues conv sigs smp.data 0 smp.length).map fun data =>
    { version := msgVersion, type := msgTypeData, reserved1 := 0, id := 0
      length := BitVec.ofNat 16 smp.length
      sequence := smp.sequence.setWidth 32
      sec := smp.origin.sec.setWidth 32
      nsec := smp.origin.nsec.setWidth 32
      data }

/-! ## The format -/

structure VillasBinaryFormat where
  host : Endian
  conv : FloatConv
  web : Bool
  signals : Nat
  lists : Nat → List SignalType

structure Receiver where
  capacity : Nat
  payload : Payload

/-- What `sscan` leaves: the samples, and an error or the number of samples and of bytes that were
read. -/
structure Scanned where
  smps : List Receiver
  result : Except Int (Nat × Nat)

/-- Before, a sample was read from `len` bytes. -/
def Scanned.cons (smp : Receiver) (len : Nat) (s : Scanned) : Scanned :=
  { smps := smp :: s.smps
    result := s.result.map fun (i, n) => (i + 1, len + n) }

namespace VillasBinaryFormat

/-- The loop of `sprint`, with `room` bytes left in the buffer: the bytes and the number of samples
that are written. -/
def sprintLoop (fmt : VillasBinaryFormat) (room : Nat) : List Payload → Except Int (List Byte × Nat)
  | [] => .ok ([], 0)
  | smp :: smps =>
    if room < msgLen smp.length then .ok ([], 0)
    else
      match msgFromSample fmt.conv (fmt.lists smp.signals) smp with
      | none => .error (-1)
      | some m =>
        let m := if fmt.web then m else msgHton fmt.host m
        match sprintLoop fmt (room - msgLen smp.length) smps with
        | .error ret => .error ret
        | .ok (bytes, i) => .ok (m.bytes fmt.host ++ bytes, i + 1)

/-- `VillasBinaryFormat::sprint` into a buffer of `len` bytes. -/
def sprint (fmt : VillasBinaryFormat) (len : Nat) (smps : List Payload) : Except Int (List Byte × Nat) :=
  fmt.sprintLoop len smps

/-- The loop of `sscan`. `rest` are the bytes from `ptr` to the end of the buffer. Messages are
converted in place. -/
def sscanLoop (fmt : VillasBinaryFormat) (rest : List Byte) : List Receiver → Scanned
  | [] => ⟨[], .ok (0, 0)⟩
  | smp :: smps =>
    let smp := { smp with payload := { smp.payload with signals := fmt.signals } }
    if rest = [] then ⟨smp :: smps, .ok (0, 0)⟩
    else if rest.length < msgLen 0 then ⟨smp :: smps, .error (-2)⟩
    else
      let length := (Msg.load fmt.host 0 rest).length
      let values := (if fmt.web then length else ntoh fmt.host 16 length).toNat
      if rest.length < msgLen values then ⟨smp :: smps, .error (-3)⟩
      else
        let m := Msg.load fmt.host values rest
        let m := if fmt.web then m else msgNtoh fmt.host m
        let rest := m.bytes fmt.host ++ rest.drop (msgLen values)
        match msgToSample fmt.conv (fmt.lists fmt.signals) m smp.capacity smp.payload with
        | (payload, ret) =>
          let smp := { smp with payload }
          if ret ≠ 0 then ⟨smp :: smps, .error ret⟩
          else
            (sscanLoop fmt (rest.drop (msgLen smp.payload.length)) smps).cons smp (msgLen smp.payload.length)

def sscan (fmt : VillasBinaryFormat) (buf : List Byte) (smps : List Receiver) : Scanned :=
  if buf.length % 4 ≠ 0 then ⟨smps, .error (-1)⟩ else fmt.sscanLoop buf smps

end VillasBinaryFormat

end VillasNode
