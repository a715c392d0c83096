import Mathlib.Logic.Function.Basic
import VillasNode.Lib.Runs

/-!
# The relay for websocket connections

`RelaySession` and `RelayConnection` of `src/villas-relay.cpp`, driven by the
callbacks of libwebsockets. Sessions are objects on the heap that connections
point to. A step has no result if the code would follow a pointer to an object
that is gone, or take the front of an empty queue.

A frame is not written any more once it is shared, so frames are values here.
-/

namespace VillasNode.VillasRelay

abbrev Byte := BitVec 8

/-- Without the `LWS_PRE` bytes in front of the payload. -/
abbrev Frame := List Byte

/-- A string without its NUL. -/
abbrev Identifier := List Byte

/-- `struct lws *` -/
abbrev Wsi := Nat

/-- `RelaySession *` -/
abbrev SessionPtr := Nat

structure RelaySession where
  identifier : Identifier
  /-- The keys of the map. Each is mapped to the connection that belongs to it. -/
  connections : List Wsi
deriving DecidableEq

structure RelayConnection where
  currentFrame : Frame
  outgoingFrames : List Frame
  session : SessionPtr
  loopback : Bool
deriving DecidableEq

structure Relay where
  /-- `Relay::loopback` -/
  loopback : Bool
  /-- `RelaySession::sessions` -/
  sessions : Identifier → Option SessionPtr
  heap : SessionPtr → Option RelaySession
  connections : Wsi → Option RelayConnection
  /-- `lws_callback_on_writable` was called, and the callback is still to come. -/
  pending : Wsi → Bool
  /-- What `lws_write` has taken since the connection was established. -/
  written : Wsi → List Frame

namespace Relay

def start (loopback : Bool) : Relay :=
  { loopback, sessions := fun _ => none, heap := fun _ => none, connections := fun _ => none
    pending := fun _ => false, written := fun _ => [] }

def setSession (r : Relay) (p : SessionPtr) (rs : Option RelaySession) : Relay :=
  { r with heap := Function.update r.heap p rs }

def setConnection (r : Relay) (wsi : Wsi) (c : Option RelayConnection) : Relay :=
  { r with connections := Function.update r.connections wsi c }

def setPending (r : Relay) (wsi : Wsi) (b : Bool) : Relay :=
  { r with pending := Function.update r.pending wsi b }

/-! ## `RelaySession::get` -/

def sizeofUri : Nat := 64

/-- `uri` is what `lws_hdr_copy`, whose result is ignored, leaves in the buffer. A new session is made
at the address `p`. `none` is an `InvalidUrlException`. -/
def getSession (r : Relay) (p : SessionPtr) (uri : List Byte) : Option (Relay × SessionPtr) :=
  if uri.length ≤ 1 then none
  else
    let sid := uri.drop 1
    match r.sessions sid with
    | none =>
      let r := r.setSession p (some ⟨sid, []⟩)
      some ({ r with sessions := Function.update r.sessions sid (some p) }, p)
    | some p => some (r, p)

/-! ## `RelayConnection` -/

def insert (wsi : Wsi) (connections : List Wsi) : List Wsi :=
  if wsi ∈ connections then connections else wsi :: connections

/-- The constructor. -/
def established (r : Relay) (wsi : Wsi) (p : SessionPtr) (uri : List Byte) : Option Relay :=
  match r.getSession p uri with
  | none => some r
  | some (r, p) =>
    (r.heap p).map fun rs =>
      let r := r.setSession p (some { rs with connections := insert wsi rs.connections })
      let c : RelayConnection :=
        { currentFrame := [], outgoingFrames := [], session := p, loopback := r.loopback }
      let r := (r.setConnection wsi (some c)).setPending wsi false
      { r with written := Function.update r.written wsi [] }

/-- The destructor. -/
def closed (r : Relay) (wsi : Wsi) : Option Relay := do
  let c ← r.connections wsi
  let rs ← r.heap c.session
  let r := r.setConnection wsi none
  let rs := { rs with connections := rs.connections.erase wsi }
  if rs.connections.isEmpty then
    let r := r.setSession c.session none
    return { r with sessions := Function.update r.sessions rs.identifier none }
  else return r.setSession c.session (some rs)

/-- `ret` is what `lws_write` returns. -/
def write (r : Relay) (wsi : Wsi) (ret : Int) : Option Relay := do
  let c ← r.connections wsi
  let fr ← c.outgoingFrames.head?
  if ret < 0 then return r
  else
    let outgoingFrames := c.outgoingFrames.tail
    let r := r.setConnection wsi (some { c with outgoingFrames })
    let r := { r with written := Function.update r.written wsi (r.written wsi ++ [fr]) }
    return if outgoingFrames.length > 0 then r.setPending wsi true else r

/-- The body of the loop over `session->connections`, for the connection `w`. -/
def relayTo (wsi : Wsi) (c : RelayConnection) (r : Relay) (w : Wsi) : Option Relay :=
  if c.loopback = false ∧ w = wsi then some r
  else
    (r.connections w).map fun d =>
      (r.setConnection w (some { d with outgoingFrames := d.outgoingFrames ++ [c.currentFrame] })).setPending
        w true

/-- `final` is what `lws_is_final_fragment` returns. -/
def read (r : Relay) (wsi : Wsi) (bytes : List Byte) (final : Bool) : Option Relay := do
  let c ← r.connections wsi
  let c := { c with currentFrame := c.currentFrame ++ bytes }
  let r := r.setConnection wsi (some c)
  if final then
    let rs ← r.heap c.session
    let r ← rs.connections.foldlM (relayTo wsi c) r
    let c ← r.connections wsi
    return r.setConnection wsi (some { c with currentFrame := [] })
  else return r

end Relay

/-! ## Callbacks -/

/-- The reasons for which libwebsockets calls `protocolCallback`. -/
inductive Event where
  /-- A request for `path`, of which `lws_hdr_copy` leaves `uri` in the buffer. -/
  | established (wsi : Wsi) (p : SessionPtr) (path uri : List Byte)
  | receive (wsi : Wsi) (bytes : List Byte) (final : Bool)
  | writeable (wsi : Wsi) (ret : Int)
  | closed (wsi : Wsi)
deriving DecidableEq

namespace Relay

def protocolCallback (r : Relay) : Event → Option Relay
  | .established wsi p _ uri => r.established wsi p uri
  | .receive wsi bytes final => r.read wsi bytes final
  -- The request is answered by this callback.
  | .writeable wsi ret => (r.setPending wsi false).write wsi ret
  | .closed wsi => r.closed wsi

/-- What is documented of `lws_hdr_copy`: a path that fits into the buffer with its NUL is copied. -/
def HeaderCopied : Event → Prop
  | .established _ _ path uri => path.length < sizeofUri → uri = path
  | .receive _ _ _ | .writeable _ _ | .closed _ => True

/-- What libwebsockets does: one callback for each request, callbacks for connections that are open,
and new connections that are none of these. `operator new` finds a free address. -/
def Delivers (r : Relay) : Event → Prop
  | .established wsi p _ _ => r.connections wsi = none ∧ r.heap p = none
  | .receive wsi _ _ => (r.connections wsi).isSome
  | .writeable wsi _ => (r.connections wsi).isSome ∧ r.pending wsi = true
  | .closed wsi => (r.connections wsi).isSome

instance (r : Relay) : DecidablePred r.Delivers
  | .established wsi p _ _ => inferInstanceAs (Decidable (r.connections wsi = none ∧ r.heap p = none))
  | .receive wsi _ _ => inferInstanceAs (Decidable ((r.connections wsi).isSome = true))
  | .writeable wsi _ =>
    inferInstanceAs (Decidable ((r.connections wsi).isSome = true ∧ r.pending wsi = true))
  | .closed wsi => inferInstanceAs (Decidable ((r.connections wsi).isSome = true))

end Relay

end VillasNode.VillasRelay
