import Mathlib.Data.List.Flatten
import VillasNode.Node.Read
import VillasNode.Node.SocketRead
import VillasNode.Path.Wire

/-!
# Two nodes in a row

A simple path of one node writes to a socket, and a simple path of another node
reads from one. The network between them loses packets. What the destination of
the second path gets is what the source of the first one has delivered, with
samples left out at most.
-/

namespace VillasNode.SocketLink

open ByteOrder PacketWrite

variable {σ τ : Type*} {z : SampleId → Sample} {R : Multiset SampleId} {p p' : Path σ} {i : Nat}
  {ev : Reading}

/-! ## A source without hooks -/

def payloads : DriverRead → List Payload
  | .fail _ => []
  | .read smps => smps

/-- What a driver is given in an action for the destination `b`, with its results. -/
def driverCalls (p : Path σ) (b : Nat) : PathAction → List (List Payload × DriverWrite)
  | .write i rs =>
    if i = b then
      match p.destinations[i]? with
      | none => []
      | some pd => ((pathDestinationWrite pd p.heap rs).map fun w => w.2.2.zip rs).getD []
    else []
  | .read _ _ | .timeout => []

/-- Two nodes, each with a path, and the packets on the way from one to the other. -/
structure Tandem (σ τ : Type*) where
  west : Wire σ
  flight : List Datagram
  east : Wire τ

structure Link where
  sender : VillasBinaryFormat
  receiver : Socket
  /-- `s->out.buflen` -/
  buflen : Nat
  /-- The length of the largest packet. -/
  largest : Nat
  /-- The room in the samples of the second path. -/
  capacity : Nat

inductive Event where
  /-- An action of the first path. `calls` has what each call of `socket_write` gives, and the header of
  its packet. -/
  | west (a : PathAction) (calls : List (PacketWrite.Outcome × List Byte))
  /-- A packet gets lost. -/
  | lose (k : Nat)
  /-- A packet of somebody else arrives. -/
  | foreign (bytes : List Byte)
  /-- An action of the second path, in which `socket_read` is called for so many packets. -/
  | east (a : PathAction) (taken : Nat)

/-- A call of the driver of the first path. -/
structure Sends (L : Link) (call : List Payload × DriverWrite) (o : PacketWrite.Outcome × List Byte) :
    Prop where
  write : ∃ broken new rounds buf,
    socketWrite (binaryFormat L.sender broken) new call.1 rounds buf L.buflen = some o.1
  result : call.2 = driverWrite o.1.ret
  encodable : ∀ smp ∈ call.1, L.sender.Encodable smp
  header : L.receiver.Headed o.2

/-- A call of the driver of the second path. -/
def Reads (L : Link) (r : DriverRead) (d : Datagram) : Prop :=
  ∃ rxs : List Receiver, (∀ rx ∈ rxs, rx.capacity = L.capacity) ∧ r = driverRead (socketRead L.receiver d rxs)

/-- The source of the first path delivers all of its `length` signals, no path has a rate, and nobody
else is listened to. The drivers do what `socket_write` and `socket_read` do. -/
def Proper (L : Link) (b length : Nat) (t : Tandem σ τ) : Event → Prop
  | .west a calls =>
    t.west.traffic.path.Regular length a ∧ List.Forall₂ (Sends L) (driverCalls t.west.traffic.path b a) calls
  | .lose _ => True
  | .foreign _ => L.receiver.verifySource
  | .east (.read _ ev) taken => List.Forall₂ (Reads L) ev.results (t.flight.take taken)
  | .east .timeout _ => False
  | .east (.write _ _) taken => taken = 0

/-! ## Packets and the samples in them -/

/-- What is to be read from a packet. -/
def Carries (L : Link) (d : Datagram) (smps : List Payload) : Prop :=
  (d.known = false ∧ L.receiver.verifySource ∧ smps = []) ∨
    ∃ header bytes, d = ⟨header ++ bytes, true⟩ ∧ L.receiver.Headed header ∧ bytes ≠ [] ∧
      (header ++ bytes).length ≤ L.largest ∧ (∀ smp ∈ smps, L.sender.Encodable smp) ∧
        L.sender.messages smps = some bytes

def taken : List Payload × DriverWrite → List Payload
  | (smps, .sent n) => smps.take n
  | (_, .fail _) => []

/-- What villas.binary would tell of it. -/
def seen (x : Snapshot) : Content := ⟨x.sequence, x.origin, x.values⟩

def wired (x : WireSample) : Content := ⟨x.sequence, x.origin, x.values⟩

section
variable {L : Link} {b c node node' length : Nat} {pd : PathDestination σ} {q : Path τ}
  {qd : PathDestination τ} {z' : SampleId → Sample} {w w' : Wire σ} {t t' : Tandem σ τ} {a : PathAction}

/-- A simple path, of which the destination `b` is looked at. Nothing waits for it, and its queue has
at least two places. -/
structure Laid (z : SampleId → Sample) (b node length : Nat) (p : Path σ) (pd : PathDestination σ) :
    Prop where
  conserved : ∃ R, Conserved z R p
  spared : p.Spared
  separate : p.Separate b
  destination : p.destinations[b]? = some pd
  simple : p.Simple node length
  empty : pd.queue = []
  two_le : 2 ≤ pd.queueSize

theorem Laid.waiting (h : Laid z b node length p pd) : pd.waiting p.heap = [] := by
  unfold PathDestination.waiting
  rw [h.empty, List.map_nil]

/-- Nothing is on the way. -/
def quiet (p : Path σ) (q : Path τ) : Tandem σ τ := ⟨⟨⟨p, [], []⟩, []⟩, [], ⟨⟨q, [], []⟩, []⟩⟩

end

/-! ## One sample on its way -/

/-- The hosts have different byte orders. -/
def pairFormat (host : Endian) : VillasBinaryFormat :=
  { exampleFormat with host, lists := fun _ => [.integer, .integer] }

def exampleLink : Link where
  sender := pairFormat .little
  receiver := ⟨.udp, true, 65536, pairFormat .big⟩
  buflen := 65536
  largest := 65507
  capacity := 4

end VillasNode.SocketLink
