import Mathlib.Algebra.Group.Nat.Defs
import Mathlib.Data.Nat.Log
import Mathlib.Logic.Function.Basic

/-!
# The MPMC queue

`lib/queue.cpp`, one atomic access per step, in any interleaving of any number
of threads. `head`, `tail` and the sequence numbers are machine words. A
thread's local state is its place in `queue_push` or `queue_pull` together with
the local variables that are still needed there.

The signed difference of two sequence numbers is taken as wrapping.
-/

namespace VillasNode.Mpmc

/-- `size_t` on a 64-bit target. -/
abbrev Word := BitVec 64

structure QueueCell (α : Type*) where
  sequence : Word
  /-- `data_off`. Not initialised by `queue_init`. -/
  data : Option α

structure Queue (α : Type*) where
  stopped : Bool
  bufferMask : Word
  tail : Word
  head : Word
  buffer : Nat → QueueCell α

/-- `queue_init`. `IS_POW2` and `LOG2_CEIL` of the common submodule round `size` up to a power of
two. -/
def queueInit (α : Type*) (size : Nat) : Queue α :=
  { stopped := false, bufferMask := BitVec.ofNat 64 (2 ^ Nat.clog 2 size - 1), tail := 0, head := 0
    buffer := fun i => { sequence := BitVec.ofNat 64 i, data := none } }

namespace Queue

variable {α : Type*}

def index (q : Queue α) (pos : Word) : Nat := (pos &&& q.bufferMask).toNat

def cell (q : Queue α) (pos : Word) : QueueCell α := q.buffer (q.index pos)

def setSequence (q : Queue α) (pos seq : Word) : Queue α :=
  { q with buffer := Function.update q.buffer (q.index pos) { q.cell pos with sequence := seq } }

def setData (q : Queue α) (pos : Word) (v : α) : Queue α :=
  { q with buffer := Function.update q.buffer (q.index pos) { q.cell pos with data := some v } }

end Queue

/-- Where a thread is. Each constructor is named after the access that comes next. -/
inductive Local (α : Type*) where
  | idle
  | pushState (v : α)
  | pushTail (v : α)
  | pushSequence (v : α) (pos : Word)
  | pushExchange (v : α) (pos : Word)
  | pushData (v : α) (pos : Word) (p : Nat)
  | pushPublish (v : α) (pos : Word) (p : Nat)
  | pullState
  | pullHead
  | pullSequence (pos : Word)
  | pullExchange (pos : Word)
  | pullData (pos : Word) (p : Nat)
  | pullRelease (pos : Word) (p : Nat) (d : Option α)
deriving DecidableEq

/-- What happened so far. No access reads it. The `p` of a local state belongs to it too: the
claimed position, counted without wrapping. -/
structure History (τ α : Type*) where
  /-- The values, in the order in which tail positions were claimed for them. -/
  claims : List α
  heads : Nat
  /-- The sequence number of each cell, counted without wrapping. -/
  sequences : Nat → Nat
  /-- The two counts at the start of a thread's operation. -/
  began : τ → Nat × Nat
  /-- The positions of the pushes that returned 1. -/
  pushed : List Nat
  /-- The positions and values of the pulls that returned 1. -/
  pulled : List (Nat × Option α)

structure Config (τ α : Type*) where
  queue : Queue α
  locals : τ → Local α
  history : History τ α

inductive Action (α : Type*) where
  | push (v : α)
  | pull
  | close
  /-- The next access of the operation in progress. A weak compare-exchange may fail for no reason. -/
  | access (spurious : Bool)

variable {τ α : Type*} [DecidableEq τ]

def Config.init (τ α : Type*) (size : Nat) : Config τ α :=
  { queue := queueInit α size, locals := fun _ => .idle
    history := { claims := [], heads := 0, sequences := id, began := fun _ => (0, 0)
                 pushed := [], pulled := [] } }

namespace Config

def goto (c : Config τ α) (t : τ) (l : Local α) : Config τ α :=
  { c with locals := Function.update c.locals t l }

def start (c : Config τ α) (t : τ) (l : Local α) : Config τ α :=
  let began := Function.update c.history.began t (c.history.claims.length, c.history.heads)
  { c.goto t l with history := { c.history with began } }

def claimTail (c : Config τ α) (t : τ) (v : α) (pos : Word) : Config τ α :=
  { queue := { c.queue with tail := pos + 1 }
    locals := Function.update c.locals t (.pushData v pos c.history.claims.length)
    history := { c.history with claims := c.history.claims ++ [v] } }

def writeData (c : Config τ α) (t : τ) (v : α) (pos : Word) (p : Nat) : Config τ α :=
  { c.goto t (.pushPublish v pos p) with queue := c.queue.setData pos v }

def publish (c : Config τ α) (t : τ) (pos : Word) (p : Nat) : Config τ α :=
  let sequences := Function.update c.history.sequences (c.queue.index pos) (p + 1)
  { queue := c.queue.setSequence pos (pos + 1)
    locals := Function.update c.locals t .idle
    history := { c.history with sequences, pushed := c.history.pushed ++ [p] } }

def claimHead (c : Config τ α) (t : τ) (pos : Word) : Config τ α :=
  { queue := { c.queue with head := pos + 1 }
    locals := Function.update c.locals t (.pullData pos c.history.heads)
    history := { c.history with heads := c.history.heads + 1 } }

def readData (c : Config τ α) (t : τ) (pos : Word) (p : Nat) : Config τ α :=
  c.goto t (.pullRelease pos p (c.queue.cell pos).data)

def release (c : Config τ α) (t : τ) (pos : Word) (p : Nat) (d : Option α) : Config τ α :=
  let sequences := Function.update c.history.sequences (c.queue.index pos)
    (p + (c.queue.bufferMask.toNat + 1))
  { queue := c.queue.setSequence pos (pos + c.queue.bufferMask + 1)
    locals := Function.update c.locals t .idle
    history := { c.history with sequences, pulled := c.history.pulled ++ [(p, d)] } }

def access (c : Config τ α) (t : τ) (spurious : Bool) : Option (Config τ α) :=
  let q := c.queue
  match c.locals t with
  | .idle => none
  | .pushState v => some (c.goto t (if q.stopped then .idle else .pushTail v))
  | .pushTail v => some (c.goto t (.pushSequence v q.tail))
  | .pushSequence v pos =>
    let diff := ((q.cell pos).sequence - pos).toInt
    some (c.goto t (if diff = 0 then .pushExchange v pos else if diff < 0 then .idle else .pushTail v))
  | .pushExchange v pos =>
    if q.tail = pos ∧ ¬ spurious then some (c.claimTail t v pos)
    else some (c.goto t (.pushSequence v q.tail))
  | .pushData v pos p => some (c.writeData t v pos p)
  | .pushPublish _ pos p => some (c.publish t pos p)
  | .pullState => some (c.goto t (if q.stopped then .idle else .pullHead))
  | .pullHead => some (c.goto t (.pullSequence q.head))
  | .pullSequence pos =>
    let diff := ((q.cell pos).sequence - (pos + 1)).toInt
    some (c.goto t (if diff = 0 then .pullExchange pos else if diff < 0 then .idle else .pullHead))
  | .pullExchange pos =>
    if q.head = pos ∧ ¬ spurious then some (c.claimHead t pos)
    else some (c.goto t (.pullSequence q.head))
  | .pullData pos p => some (c.readData t pos p)
  | .pullRelease pos p d => some (c.release t pos p d)

/-- Thread `t` calls a function of the queue when it is in none. -/
def call (c : Config τ α) (t : τ) (c' : Config τ α) : Option (Config τ α) :=
  match c.locals t with
  | .idle => some c'
  | _ => none

/-- Thread `t` calls `queue_push`, `queue_pull` or `queue_close`, or takes its next access. -/
def step (c : Config τ α) : τ × Action α → Option (Config τ α)
  | (t, .push v) => c.call t (c.start t (.pushState v))
  | (t, .pull) => c.call t (c.start t .pullState)
  | (t, .close) => c.call t { c with queue := { c.queue with stopped := true } }
  | (t, .access spurious) => c.access t spurious

end Config

end VillasNode.Mpmc
