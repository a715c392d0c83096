import VillasNode.Queue.Model

/-!
# The signalled queue

`lib/queue_signalled.cpp` in the modes EVENTFD and PTHREAD, one atomic step at a
time: the accesses of `lib/queue.cpp`, the `read` and `write` of the descriptor,
and the calls on the mutex and the condition variable.
-/

namespace VillasNode.Signalled

open Mpmc

/-- In EVENTFD mode only one thread pulls. -/
inductive Mode (τ : Type*) where
  | eventfd (consumer : τ)
  | pthread

/-- Where a thread is. Each constructor is named after what comes next. -/
inductive Place (α : Type*) where
  | idle
  /-- In `queue_push`, with `i` values pushed and `rest` to follow. -/
  | pushing (rest : List α) (i : Nat)
  | signalLock
  /-- `write`, or `pthread_cond_broadcast`. -/
  | signal
  | unlock
  | pullLock (cnt : Nat)
  /-- In `queue_pull`, with `i` of `cnt` values pulled. -/
  | pulling (cnt i : Nat)
  /-- `read`, or `pthread_cond_wait`. -/
  | wait (cnt : Nat)
  /-- In `pthread_cond_wait`, without the mutex. -/
  | waiting (cnt : Nat)
  | woken (cnt : Nat)
  | closeLock
  | closing
deriving DecidableEq

structure QueueSignalled (τ α : Type*) where
  config : Config τ α
  places : τ → Place α
  /-- The counter of the descriptor. -/
  eventfd : Nat
  mutex : Option τ

def QueueSignalled.init (τ α : Type*) (size : Nat) : QueueSignalled τ α :=
  { config := Config.init τ α size, places := fun _ => .idle, eventfd := 0, mutex := none }

/-- What `queue_push` or `queue_pull` returns, if its next access is the last one. -/
def result {α : Type*} (q : Queue α) : Local α → Option Int
  | .pushState _ | .pullState => if q.stopped then some (-1) else none
  | .pushSequence _ pos => if ((q.cell pos).sequence - pos).toInt < 0 then some 0 else none
  | .pullSequence pos => if ((q.cell pos).sequence - (pos + 1)).toInt < 0 then some 0 else none
  | .pushPublish _ _ _ | .pullRelease _ _ _ => some 1
  | _ => none

/-- The signalling at the end of a push. -/
def Mode.signalling {τ α : Type*} : Mode τ → Place α
  | .eventfd _ => .signal
  | .pthread => .signalLock

/-- What comes behind the signal, and behind the last `queue_pull`. -/
def Mode.ending {τ α : Type*} : Mode τ → Place α
  | .eventfd _ => .idle
  | .pthread => .unlock

inductive Action (α : Type*) where
  | push (v : α)
  /-- For an empty batch, `garbage` tells whether the uninitialised `ret` is -1. -/
  | pushMany (vs : List α) (garbage : Bool)
  | pull
  | pullMany (cnt : Nat)
  | close
  /-- A waiting thread wakes up for no reason. -/
  | wake
  /-- The next step of the call in progress. A weak compare-exchange may fail for no reason. -/
  | next (spurious : Bool)

namespace QueueSignalled

variable {τ α : Type*} [DecidableEq τ]

def goto (s : QueueSignalled τ α) (t : τ) (p : Place α) : QueueSignalled τ α :=
  { s with places := Function.update s.places t p }

def startPush (s : QueueSignalled τ α) (t : τ) (v : α) (rest : List α) (i : Nat) :
    QueueSignalled τ α :=
  { s.goto t (.pushing rest i) with config := s.config.start t (.pushState v) }

def startPull (s : QueueSignalled τ α) (t : τ) (cnt i : Nat) : QueueSignalled τ α :=
  { s.goto t (.pulling cnt i) with config := s.config.start t .pullState }

/-- The next access inside the queue, and what follows when the function returns. -/
def access (s : QueueSignalled τ α) (t : τ) (spurious : Bool)
    (returns : QueueSignalled τ α → Int → QueueSignalled τ α) : Option (QueueSignalled τ α) :=
  (s.config.access t spurious).map fun config =>
    match result s.config.queue (s.config.locals t) with
    | none => { s with config }
    | some ret => returns { s with config } ret

/-- `queue_push` has returned to `queue_push_many`. `queue_signalled_push` is the case of one
value. -/
def pushReturns (mode : Mode τ) (t : τ) (rest : List α) (i : Nat) (s : QueueSignalled τ α)
    (ret : Int) : QueueSignalled τ α :=
  if ret ≤ 0 then
    if ret = -1 ∧ i = 0 then s.goto t .idle else s.goto t mode.signalling
  else
    match rest with
    | [] => s.goto t mode.signalling
    | v :: rest => s.startPush t v rest (i + 1)

/-- `queue_pull` has returned to `queue_pull_many`. `queue_signalled_pull` is the case of one
value. -/
def pullReturns (mode : Mode τ) (t : τ) (cnt i : Nat) (s : QueueSignalled τ α) (ret : Int) :
    QueueSignalled τ α :=
  if ret ≤ 0 then
    if ret = 0 ∧ i = 0 then s.goto t (.wait cnt) else s.goto t mode.ending
  else if i + 1 < cnt then s.startPull t cnt (i + 1)
  else s.goto t mode.ending

/-- `pthread_mutex_lock`, which blocks while the mutex is taken. -/
def lock (s : QueueSignalled τ α) (t : τ) (locked : QueueSignalled τ α) :
    Option (QueueSignalled τ α) :=
  if s.mutex = none then some { locked with mutex := some t } else none

def wakeUp : Place α → Place α
  | .waiting cnt => .woken cnt
  | p => p

def broadcast (s : QueueSignalled τ α) : QueueSignalled τ α :=
  { s with places := fun t => wakeUp (s.places t) }

def queueClose (s : QueueSignalled τ α) : QueueSignalled τ α :=
  { s with config := { s.config with queue := { s.config.queue with stopped := true } } }

def next (mode : Mode τ) (s : QueueSignalled τ α) (t : τ) (spurious : Bool) :
    Option (QueueSignalled τ α) :=
  match s.places t with
  | .idle => none
  | .pushing rest i => s.access t spurious (pushReturns mode t rest i)
  | .signalLock => s.lock t (s.goto t .signal)
  | .signal =>
    match mode with
    | .eventfd _ => some { s.goto t mode.ending with eventfd := s.eventfd + 1 }
    | .pthread => some (s.broadcast.goto t mode.ending)
  | .unlock => some { s.goto t .idle with mutex := none }
  | .pullLock cnt => s.lock t (s.startPull t cnt 0)
  | .pulling cnt i => s.access t spurious (pullReturns mode t cnt i)
  | .wait cnt =>
    match mode with
    | .eventfd _ => if s.eventfd = 0 then none else some { s.startPull t cnt 0 with eventfd := 0 }
    | .pthread => some { s.goto t (.waiting cnt) with mutex := none }
  | .waiting _ => none
  | .woken cnt => s.lock t (s.startPull t cnt 0)
  | .closeLock => s.lock t (s.goto t .closing)
  | .closing => some ((if spurious then s else s.queueClose).goto t .signal)

def pull (mode : Mode τ) (s : QueueSignalled τ α) (t : τ) (cnt : Nat) :
    Option (QueueSignalled τ α) :=
  match mode with
  | .eventfd consumer => if t = consumer ∧ 1 ≤ cnt then some (s.startPull t cnt 0) else none
  | .pthread => if 1 ≤ cnt then some (s.goto t (.pullLock cnt)) else none

/-- The calls that a thread makes when it is in none. -/
def call (mode : Mode τ) (s : QueueSignalled τ α) (t : τ) : Action α → Option (QueueSignalled τ α)
  | .push v => some (s.startPush t v [] 0)
  | .pushMany [] garbage => some (if garbage then s else s.goto t mode.signalling)
  | .pushMany (v :: vs) _ => some (s.startPush t v vs 0)
  | .pull => s.pull mode t 1
  | .pullMany cnt => s.pull mode t cnt
  | .close =>
    match mode with
    | .eventfd _ => some (s.goto t .closing)
    | .pthread => some (s.goto t .closeLock)
  | .wake | .next _ => none

def step (mode : Mode τ) (s : QueueSignalled τ α) : τ × Action α → Option (QueueSignalled τ α)
  | (t, .next spurious) => s.next mode t spurious
  | (t, .wake) =>
    match s.places t with
    | .waiting cnt => some (s.goto t (.woken cnt))
    | _ => none
  | (t, a) =>
    match s.places t with
    | .idle => s.call mode t a
    | _ => none

end QueueSignalled

end VillasNode.Signalled
