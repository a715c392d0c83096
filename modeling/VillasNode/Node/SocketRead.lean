import VillasNode.Node.PacketWrite
import VillasNode.Path.Model
import VillasNode.VillasBinary.RoundTrip

/-!
# Reading packets

`socket_read` of `lib/nodes/socket.cpp` with the format villas.binary, and what
it makes of a packet that `socket_write` of another node has sent.
-/

namespace VillasNode.SocketLink

open ByteOrder VillasBinaryFormat PacketWrite

/-! ## The receiver -/

inductive SocketLayer where
  | eth
  | ip
  | udp
  | unix
deriving DecidableEq

/-- A packet as `recvfrom` gives it. `known` says whether it came from the address to which the node
writes. -/
structure Datagram where
  bytes : List Byte
  known : Bool

structure Socket where
  layer : SocketLayer
  verifySource : Bool
  buflen : Nat
  fmt : VillasBinaryFormat

/-- `iphdr->ip_hl * 4` -/
def ipHeader (buf : List Byte) : Nat := 4 * ((buf.headD 0).toNat % 16)

/-- The result, and what is left in the samples. -/
def socketRead (s : Socket) (d : Datagram) (smps : List Receiver) : Int × List Receiver :=
  let buf := d.bytes.take s.buflen
  if buf = [] then (0, smps)
  else
    let ptr := if s.layer = .ip then buf.drop (ipHeader buf) else buf
    if s.verifySource ∧ ¬ d.known then (0, smps)
    else
      let r := s.fmt.sscan ptr smps
      match r.result with
      | .ok (i, _) => (i, r.smps)
      | .error ret => (ret, r.smps)

/-- What `node_read` gets to see of it. -/
def driverRead : Int × List Receiver → DriverRead
  | (.ofNat n, smps) => .read ((smps.take n).map Receiver.payload)
  | (.negSucc code, _) => .fail code

/-- The kernel puts a header in front of the packets of a raw socket. -/
def Socket.Headed (s : Socket) (header : List Byte) : Prop :=
  if s.layer = .ip then header ≠ [] ∧ header.length = ipHeader header else header = []

/-! ## What arrives -/

/-- What villas.binary tells of a sample. -/
structure Content where
  sequence : BitVec 64
  origin : Timespec
  values : List Value
deriving DecidableEq

def content (x : Payload) : Content := ⟨x.sequence, x.origin, (List.range x.length).map x.data⟩

/-- Two nodes whose formats agree. Their byte orders and the places of their signals do not have to. -/
structure Compatible (w r : VillasBinaryFormat) : Prop where
  wire : w.wire = r.wire
  conv : w.conv = r.conv
  types : w.lists w.signals = r.lists r.signals

section
variable {w r : VillasBinaryFormat} {smp : Payload} {smps : List Payload} {bytes : List Byte}
  {ms : List Msg} {rxs : List Receiver}

theorem Compatible.frames (h : Compatible w r) (ms : List Msg) : w.frames ms = r.frames ms := by
  unfold VillasBinaryFormat.frames
  rw [h.wire]

/-- The sample as the receiver would send it. -/
def resend (r : VillasBinaryFormat) (smp : Payload) : Payload := { smp with signals := r.signals }

theorem Compatible.encodable (h : Compatible w r) (henc : w.Encodable smp) : r.Encodable (resend r smp) where
  signals := rfl
  sequence := henc.sequence
  sec := henc.sec
  nsec := henc.nsec
  length_le := henc.length_le
  length_le_signals := by
    rw [← h.types]
    exact henc.length_le_signals
  exact := by
    rw [← h.types, ← h.conv]
    exact henc.exact

theorem Compatible.msgFromSample (h : Compatible w r) (henc : w.Encodable smp) :
    VillasNode.msgFromSample r.conv (r.lists (resend r smp).signals) (resend r smp) =
      VillasNode.msgFromSample w.conv (w.lists smp.signals) smp := by
  rw [henc.signals, h.types, h.conv]
  rfl

end

/-! ## The sender -/

def driverWrite : Int → DriverWrite
  | .ofNat n => .sent n
  | .negSucc code => .fail code

section
variable {conv : FloatConv} {sigs : List SignalType} {data : Nat → Value} {w : VillasBinaryFormat}
  {smp : Payload} {smps : List Payload} {bytes : List Byte}

end

end VillasNode.SocketLink
