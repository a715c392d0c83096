import VillasNode.Lib.MachineInt
import VillasNode.Node.Connections
import VillasNode.Node.Websocket

/-!
# Batches of samples in WebSocket nodes

`websocket_write` and the receiving half of `websocket_protocol_cb` of
`lib/nodes/websocket.cpp`, each as one call. Both allocate as many samples as
the pool has, and then work with arrays of which only so many places are
written. What the queues make of the samples is any, as other threads use them.
-/

namespace VillasNode.WebsocketBatch

/-! ## Queues -/

/-- What `queue_push` returns for the first, second and any later sample of a call. -/
abbrev Pushes := Nat → Int

/-- The loop of `queue_push_many`, with the last result and the count `i`. -/
def pushLoop (push : Pushes) (i : Nat) (ret : Int) : List SampleId → Int × Nat
  | [] => (ret, i)
  | _ :: smps => if push i ≤ 0 then (push i, i) else pushLoop push (i + 1) (push i) smps

/-- `queue_push_many`, with the samples that are in the queue behind it. `ret` has no initial value,
so it is any. -/
def queuePushMany (push : Pushes) (ret : Int) (smps : List SampleId) : Int × List SampleId :=
  let (ret, i) := pushLoop push 0 ret smps
  (if ret = -1 ∧ i = 0 then -1 else i, smps.take i)

/-- `QueueSignalledMode`, and what `write` returns for the descriptor. -/
inductive Mode where
  | pthread
  | polling
  | eventfd (written : Int)
  | other
deriving DecidableEq

def queueSignalledPushMany (mode : Mode) (push : Pushes) (ret : Int) (smps : List SampleId) :
    Int × List SampleId :=
  let (pushed, queued) := queuePushMany push ret smps
  if pushed < 0 then (pushed, queued)
  else
    match mode with
    | .pthread | .polling => (pushed, queued)
    | .eventfd written => if written < 0 then (written, queued) else (pushed, queued)
    | .other => (-1, queued)

section
variable {push : Pushes} {ret : Int} {smps : List SampleId}

theorem pushLoop_count (push : Pushes) (ret : Int) (smps : List SampleId) (i : Nat) :
    i ≤ (pushLoop push i ret smps).2 ∧ (pushLoop push i ret smps).2 ≤ i + smps.length := by
  induction smps generalizing i ret with
  | nil => exact ⟨le_refl i, le_refl i⟩
  | cons smp smps ih =>
    rw [pushLoop, List.length_cons]
    split
    · dsimp only
      omega
    · obtain ⟨hle, hge⟩ := ih (push i) (i + 1)
      omega

theorem queuePushMany_spec (push : Pushes) (ret : Int) (smps : List SampleId) :
    (∃ k : Nat, k ≤ smps.length ∧ queuePushMany push ret smps = ((k : Int), smps.take k)) ∨
      queuePushMany push ret smps = (-1, []) := by
  obtain ⟨-, hle⟩ := pushLoop_count push ret smps 0
  rw [Nat.zero_add] at hle
  unfold queuePushMany
  dsimp only
  split
  · rename_i hfail
    right
    rw [hfail.2, List.take_zero]
  · exact .inl ⟨_, hle, rfl⟩

theorem queuePushMany_neg_iff (push : Pushes) (ret : Int) (smps : List SampleId) :
    (queuePushMany push ret smps).1 < 0 ↔ if smps = [] then ret = -1 else push 0 = -1 := by
  have hnat (c : Prop) [Decidable c] (k : Nat) : (if c then (-1 : Int) else k) < 0 ↔ c := by
    split <;> simp [*]
  unfold queuePushMany
  dsimp only
  rw [hnat]
  cases smps with
  | nil =>
    rw [if_pos rfl]
    exact and_iff_left rfl
  | cons smp smps =>
    rw [if_neg (List.cons_ne_nil smp smps), pushLoop]
    split
    · exact and_iff_left rfl
    · rename_i hpos
      have hcount := (pushLoop_count push (push 0) smps 1).1
      constructor
      · rintro ⟨-, hzero⟩
        rw [Nat.zero_add] at hzero
        omega
      · intro hneg
        omega

/-- A push that is not refused, and after which the readers can be woken up. -/
def Delivers (mode : Mode) (push : Pushes) (ret : Int) (n : Nat) : Prop :=
  (if n = 0 then ret ≠ -1 else push 0 ≠ -1) ∧
    match mode with
    | .pthread | .polling => True
    | .eventfd written => 0 ≤ written
    | .other => False

theorem queueSignalledPushMany_spec (mode : Mode) (push : Pushes) (ret : Int)
    (smps : List SampleId) :
    (Delivers mode push ret smps.length ∧ ∃ k : Nat, k ≤ smps.length ∧
        queueSignalledPushMany mode push ret smps = ((k : Int), smps.take k)) ∨
      ¬ Delivers mode push ret smps.length ∧ (queueSignalledPushMany mode push ret smps).1 < 0 := by
  have hneg := queuePushMany_neg_iff push ret smps
  have hfirst : (if smps.length = 0 then ret ≠ -1 else push 0 ≠ -1) ↔
      ¬ (queuePushMany push ret smps).1 < 0 := by
    rw [hneg]
    by_cases hnil : smps = []
    · rw [if_pos hnil, if_pos (List.length_eq_zero_iff.mpr hnil)]
    · rw [if_neg hnil, if_neg (mt List.length_eq_zero_iff.mp hnil)]
  have hfailed : (-1 : Int) < 0 := by decide
  unfold Delivers queueSignalledPushMany
  rw [hfirst]
  obtain ⟨k, hk, hpush⟩ | hpush := queuePushMany_spec push ret smps
  · rw [hpush]
    dsimp only
    have hnat : ¬ (k : Int) < 0 := by omega
    rw [if_neg hnat]
    cases mode with
    | pthread => exact .inl ⟨⟨hnat, trivial⟩, k, hk, rfl⟩
    | polling => exact .inl ⟨⟨hnat, trivial⟩, k, hk, rfl⟩
    | eventfd written =>
      dsimp only
      split
      · rename_i hwritten
        exact .inr ⟨fun h => by omega, hwritten⟩
      · rename_i hwritten
        exact .inl ⟨⟨hnat, by omega⟩, k, hk, rfl⟩
    | other => exact .inr ⟨fun h => h.2, hfailed⟩
  · rw [hpush]
    exact .inr ⟨fun h => h.1 (by decide), hfailed⟩

end

/-! ## Receiving -/

structure Fragment where
  data : List UInt8
  first : Bool
  final : Bool

/-- The formatter and the clock, and what is found in the node. -/
structure Receiver where
  pool : PoolId
  /-- What `sscan` returns for the bytes and that many samples, and makes of the sample in each
  place. -/
  sscan : List UInt8 → Nat → Int × (Nat → Payload → Payload)
  now : Timespec
  mode : Mode
  push : Pushes
  ret : Int

structure Link where
  heap : Heap
  state : WebsocketConnections.State
  recv : List UInt8

structure Outcome where
  link : Link
  /-- What the queue of the node has got. -/
  queued : List SampleId
  rc : Int

def cnt : Nat := Websocket.pullCount

/-- `smps[i]`. Only the places that were written are in the list. -/
def place (smps : List SampleId) (i : Int) : Option SampleId :=
  if 0 ≤ i then smps[i.toNat]? else none

/-- `sample_decref_many(&smps[first], n)` -/
def decrefFrom (smps : List SampleId) (heap : Heap) (first : Int) : Nat → Option Heap
  | 0 => some heap
  | n + 1 =>
    (place smps first).bind fun smp => decrefFrom smps (heap.sampleDecref smp) (first + 1) n

/-- What `sscan` writes to the samples, the one in place `i` first. -/
def scanned (decode : Nat → Payload → Payload) (heap : Heap) (i : Nat) : List SampleId → Heap
  | [] => heap
  | smp :: smps => scanned decode (heap.setPayload smp (decode i (heap.payload smp))) (i + 1) smps

/-- The receive timestamp of `n` samples is set. -/
def stamped (now : Timespec) (smps : List SampleId) (heap : Heap) (i : Int) : Nat → Option Heap
  | 0 => some heap
  | n + 1 =>
    (place smps i).bind fun smp =>
      let payload := heap.payload smp
      stamped now smps
        (heap.setPayload smp
          { payload with received := now, flags := payload.flags ||| SampleFlags.hasTsReceived })
        (i + 1) n

def closed (l : Link) (queued : List SampleId) : Outcome :=
  ⟨l, queued, if l.state = .shutdown then -1 else 0⟩

/-- What is done with the samples behind `sscan`. `none` when a place of the array is used that was
not written or that it has not. -/
def scannedFrame (r : Receiver) (l : Link) (heap : Heap) (smps : List SampleId) (recvd : Int) :
    Option Outcome :=
  if recvd < 0 then some ⟨{ l with heap }, [], 0⟩
  else
    (stamped r.now smps heap 0 recvd.toNat).bind fun heap =>
      let (enqueued, queued) := queueSignalledPushMany r.mode r.push r.ret (smps.take recvd.toNat)
      if enqueued < smps.length then
        (decrefFrom smps heap enqueued (smps.length - enqueued).toNat).map fun heap =>
          closed { l with heap, recv := [] } queued
      else some (closed { l with heap, recv := [] } queued)

def receiveFrame (r : Receiver) (l : Link) : Option Outcome :=
  let (heap, smps) := l.heap.sampleAllocMany r.pool cnt
  let (recvd, decode) := r.sscan l.recv smps.length
  scannedFrame r l (scanned decode heap 0 smps) smps recvd

/-- `LWS_CALLBACK_RECEIVE` -/
def receive (r : Receiver) (l : Link) (f : Fragment) : Option Outcome :=
  let recv := (if f.first then [] else l.recv) ++ f.data
  if f.final then receiveFrame r { l with recv } else some ⟨{ l with recv }, [], 0⟩

/-! ### The specification -/

/-- Nobody but the queue of the node has got samples: the others are back in the pool, and each of
them once. `R` are the references from elsewhere. -/
def Conserves (z : SampleId → Sample) (R : Multiset SampleId) (r : Receiver) (l : Link)
    (f : Fragment) : Prop :=
  ∃ o, receive r l f = some o ∧ Balanced z o.link.heap ((o.queued : Multiset SampleId) + R)

/-- The frame is not the last fragment, or the samples in it are read and queued, unless the pool
was empty already. -/
def Undisturbed (r : Receiver) (l : Link) (f : Fragment) : Prop :=
  f.final →
    let bytes := (if f.first then [] else l.recv) ++ f.data
    let recvd := (r.sscan bytes (min cnt (l.heap.free r.pool).length)).1
    if recvd < 0 then l.heap.free r.pool = [] else Delivers r.mode r.push r.ret recvd.toNat

/-! ### What each loop does -/

section
variable {z : SampleId → Sample} {R : Multiset SampleId} {heap : Heap} {smps : List SampleId}

theorem place_ofNat (i : Nat) : place smps i = smps[i]? := by
  unfold place
  rw [if_pos (Int.natCast_nonneg i), Int.toNat_natCast]

theorem place_neg {i : Int} (hi : i < 0) : place smps i = none := by
  unfold place
  rw [if_neg (by omega)]

theorem scanned_balanced (decode : Nat → Payload → Payload) (i : Nat) (hb : Balanced z heap R)
    (hsmps : ∀ x ∈ smps, x ∈ R) : Balanced z (scanned decode heap i smps) R := by
  induction smps generalizing heap i with
  | nil => exact hb
  | cons smp smps ih =>
    exact ih (i + 1) (hb.setPayload (hsmps smp List.mem_cons_self) _)
      fun x hx => hsmps x (List.mem_cons_of_mem smp hx)

theorem stamped_balanced (now : Timespec) {i n : Nat} (hb : Balanced z heap R)
    (hsmps : ∀ x ∈ smps, x ∈ R) (hn : i + n ≤ smps.length) :
    ∃ heap', stamped now smps heap i n = some heap' ∧ Balanced z heap' R := by
  induction n generalizing heap i with
  | zero => exact ⟨heap, rfl, hb⟩
  | succ n ih =>
    have hi : i < smps.length := by omega
    have hplace : place smps i = some smps[i] := by
      rw [place_ofNat, List.getElem?_eq_getElem hi]
    rw [stamped, hplace, Option.bind_some, ← Int.natCast_succ]
    exact ih (hb.setPayload (hsmps _ (List.getElem_mem hi)) _) (by omega)

theorem decrefFrom_balanced {first : Nat} (hfirst : first ≤ smps.length)
    (hb : Balanced z heap ((smps.drop first : Multiset SampleId) + R)) :
    ∃ heap', decrefFrom smps heap first (smps.length - first) = some heap' ∧ Balanced z heap' R := by
  generalize hn : smps.length - first = n
  induction n generalizing heap first with
  | zero =>
    refine ⟨heap, rfl, ?_⟩
    rw [List.drop_eq_nil_of_le (by omega)] at hb
    simpa using hb
  | succ n ih =>
    have hi : first < smps.length := by omega
    have hplace : place smps first = some smps[first] := by
      rw [place_ofNat, List.getElem?_eq_getElem hi]
    rw [List.drop_eq_getElem_cons hi, ← Multiset.cons_coe, Multiset.cons_add] at hb
    rw [decrefFrom, hplace, Option.bind_some, ← Int.natCast_succ]
    exact ih (by omega) hb.decref (by omega)

theorem decrefFrom_neg {first : Int} {n : Nat} (hfirst : first < 0) (hn : 0 < n) :
    decrefFrom smps heap first n = none := by
  cases n with
  | zero => exact absurd hn (Nat.lt_irrefl 0)
  | succ n => rw [decrefFrom, place_neg hfirst, Option.bind_none]

end

/-! ### When the samples are conserved -/

section
variable {z : SampleId → Sample} {R : Multiset SampleId} {r : Receiver} {l : Link}

theorem not_balanced_of_lost {heap : Heap} {smps : List SampleId}
    (hb : Balanced z heap ((smps : Multiset SampleId) + R)) (hsmps : smps ≠ []) :
    ¬ Balanced z heap ((([] : List SampleId) : Multiset SampleId) + R) := by
  intro hlost
  have heq := hb.unique hlost
  rw [add_left_inj] at heq
  exact hsmps (Multiset.coe_eq_coe.mp heq).eq_nil

theorem scannedFrame_conserves_iff {heap : Heap} {smps : List SampleId} {recvd : Int}
    (hb : Balanced z heap ((smps : Multiset SampleId) + R)) (hle : recvd ≤ smps.length) :
    (∃ o, scannedFrame r l heap smps recvd = some o ∧
        Balanced z o.link.heap ((o.queued : Multiset SampleId) + R)) ↔
      if recvd < 0 then smps = [] else Delivers r.mode r.push r.ret recvd.toNat := by
  unfold scannedFrame
  by_cases hneg : recvd < 0
  · -- the `break` between allocation and release
    rw [if_pos hneg, if_pos hneg]
    constructor
    · rintro ⟨o, heq, hbalanced⟩
      cases heq
      by_contra hsmps
      exact not_balanced_of_lost hb hsmps hbalanced
    · rintro rfl
      exact ⟨_, rfl, hb⟩
  · rw [if_neg hneg, if_neg hneg]
    obtain ⟨n, rfl⟩ := Int.eq_ofNat_of_zero_le (not_lt.mp hneg)
    rw [Int.toNat_natCast]
    have hn : n ≤ smps.length := by omega
    have htake : (smps.take n).length = n := by rw [List.length_take, Nat.min_eq_left hn]
    obtain ⟨heap', hstamped, hb'⟩ := stamped_balanced (i := 0) r.now hb
      (fun x hx => Multiset.mem_add.mpr (.inl hx)) (show 0 + n ≤ smps.length by omega)
    rw [Int.natCast_zero] at hstamped
    rw [hstamped, Option.bind_some]
    obtain ⟨hdelivers, k, hk, hpush⟩ | ⟨hfails, hpush⟩ :=
      queueSignalledPushMany_spec r.mode r.push r.ret (smps.take n)
    · rw [htake] at hdelivers hk
      refine iff_of_true ?_ hdelivers
      rw [hpush]
      dsimp only
      have hqueued : (smps.take n).take k = smps.take k := by
        rw [List.take_take, Nat.min_eq_left hk]
      rw [hqueued]
      split
      · have hsplit : (smps : Multiset SampleId) =
            (smps.drop k : Multiset SampleId) + (smps.take k : Multiset SampleId) := by
          rw [Multiset.coe_add, Multiset.coe_eq_coe]
          exact (List.perm_append_comm.trans (List.Perm.of_eq (List.take_append_drop k smps))).symm
        rw [hsplit, add_assoc] at hb'
        obtain ⟨heap'', hdecref, hb''⟩ := decrefFrom_balanced (by omega) hb'
        have hcount : ((smps.length : Int) - k).toNat = smps.length - k := by omega
        rw [hcount, hdecref]
        exact ⟨_, rfl, hb''⟩
      · refine ⟨_, rfl, ?_⟩
        rw [List.take_of_length_le (by omega)]
        exact hb'
    · rw [htake] at hfails
      refine iff_of_false ?_ hfails
      generalize queueSignalledPushMany r.mode r.push r.ret (smps.take n) = pushed at hpush
      obtain ⟨enqueued, queued⟩ := pushed
      dsimp only at hpush ⊢
      have hlt : enqueued < smps.length := by omega
      rw [if_pos hlt, decrefFrom_neg hpush (by omega)]
      rintro ⟨o, heq, -⟩
      cases heq

theorem receiveFrame_conserves_iff (hb : Balanced z l.heap R)
    (hscan : ∀ bytes n, (r.sscan bytes n).1 ≤ n) :
    (∃ o, receiveFrame r l = some o ∧
        Balanced z o.link.heap ((o.queued : Multiset SampleId) + R)) ↔
      let recvd := (r.sscan l.recv (min cnt (l.heap.free r.pool).length)).1
      if recvd < 0 then l.heap.free r.pool = [] else Delivers r.mode r.push r.ret recvd.toNat := by
  obtain ⟨hmany, hb', -⟩ := sampleAllocMany_spec l.heap r.pool cnt hb
  have hlen : min cnt (l.heap.free r.pool).length = (l.heap.sampleAllocMany r.pool cnt).2.length := by
    rw [hmany.taken, List.length_take]
  have hnil : l.heap.free r.pool = [] ↔ (l.heap.sampleAllocMany r.pool cnt).2 = [] := by
    rw [hmany.taken, List.take_eq_nil_iff]
    exact (or_iff_right (by decide)).symm
  have hown := scanned_balanced (r.sscan l.recv (l.heap.sampleAllocMany r.pool cnt).2.length).2 0 hb'
    fun x hx => Multiset.mem_add.mpr (.inl hx)
  rw [hlen, hnil]
  exact scannedFrame_conserves_iff hown (hscan _ _)

/-- Whatever the frame, the pool and the queue are: the samples that were allocated are in the
queue or back in the pool if and only if the frame can be read, unless there are none, and the push
does not fail. -/
theorem receive_conserves_iff (f : Fragment) (hb : Balanced z l.heap R)
    (hscan : ∀ bytes n, (r.sscan bytes n).1 ≤ n) :
    Conserves z R r l f ↔ Undisturbed r l f := by
  unfold Conserves Undisturbed receive
  dsimp only
  by_cases hfinal : f.final
  · rw [if_pos hfinal]
    have hframe := @receiveFrame_conserves_iff z R r
      { l with recv := (if f.first then [] else l.recv) ++ f.data } hb hscan
    rw [hframe]
    exact ⟨fun h _ => h, fun h => h hfinal⟩
  · rw [if_neg hfinal]
    refine iff_of_true ⟨_, rfl, ?_⟩ fun h => absurd h hfinal
    simpa using hb

end

/-- Frames with one sample, or none if there is no room, for a queue that takes it. -/
def exampleReceiver : Receiver :=
  { pool := 0, sscan := fun _ n => (if n = 0 then 0 else 1, fun _ payload => payload), now := ⟨5, 0⟩
    mode := .polling, push := fun _ => 1, ret := 0 }

def exampleLink : Link := ⟨exampleHeap, .established, []⟩

theorem exampleReceiver_scan (bytes : List UInt8) (n : Nat) :
    (exampleReceiver.sscan bytes n).1 ≤ n := by
  show (if n = 0 then (0 : Int) else 1) ≤ n
  split
  · omega
  · omega

theorem receive_conserves_example :
    Conserves exampleHeap.samples {10} exampleReceiver exampleLink ⟨[], true, true⟩ := by
  refine (receive_conserves_iff _ exampleHeap_balanced exampleReceiver_scan).mpr fun _ => ?_
  exact ⟨by decide, trivial⟩

/-- A frame that cannot be parsed keeps the samples. -/
theorem receive_loses :
    ¬ ∀ (z : SampleId → Sample) (R : Multiset SampleId) (r : Receiver) (l : Link) (f : Fragment),
      Balanced z l.heap R → (∀ bytes n, (r.sscan bytes n).1 ≤ n) → Conserves z R r l f := by
  intro hclaim
  obtain ⟨o, heq, hbalanced⟩ := hclaim exampleHeap.samples {10}
    { exampleReceiver with sscan := fun _ _ => (-1, fun _ payload => payload) } exampleLink
    ⟨[], true, true⟩ exampleHeap_balanced (fun _ n => by show (-1 : Int) ≤ n; omega)
  cases heq
  exact absurd ((hbalanced.free_iff 0 1 (by decide)).mpr (by decide)) (by decide)

/-! ## Writing -/

structure Connection where
  /-- The index of its node. -/
  node : Nat
  state : WebsocketConnections.State
  push : Pushes
  ret : Int

structure Written where
  heap : Heap
  /-- What the queue of each connection has got, in the order of the list. -/
  queued : List (List SampleId)
  rc : Int

/-- `websocket_connection_write`. What is behind the places that were written is in the array, too. -/
def connectionWrite (c : Connection) (heap : Heap) (smps : List SampleId) : Heap × List SampleId :=
  if c.state ≠ .initialized then (heap, [])
  else
    let (pushed, queued) := queuePushMany c.push c.ret smps
    (heap.sampleIncrefMany (smps.take pushed.toNat), queued)

def writeConnections (n : Nat) (cpys : List SampleId) (heap : Heap) :
    List Connection → Heap × List (List SampleId)
  | [] => (heap, [])
  | c :: cs =>
    if c.node = n then
      let (heap, queued) := connectionWrite c heap cpys
      let (heap, rest) := writeConnections n cpys heap cs
      (heap, queued :: rest)
    else writeConnections n cpys heap cs

/-- `websocket_write` of the node with index `n`. The array `cpys` has `cnt` places, which hold
`garbage` before they are written. `none` when the pool gives more samples than there are places:
`cnt` is an `int` on the way there. -/
def write (n : Nat) (p : PoolId) (connections : List Connection) (garbage : Nat → SampleId)
    (heap : Heap) (smps : List SampleId) : Option Written :=
  let (heap, copies) := heap.sampleAllocMany p (MachineInt.toSize smps.length)
  if smps.length < copies.length then none
  else
    let heap := heap.sampleCopyMany copies smps
    let cpys := (List.range smps.length).map fun i => copies.getD i (garbage i)
    let (heap, queued) := writeConnections n cpys heap connections
    some ⟨heap.sampleDecrefMany copies, queued, MachineInt.toInt smps.length⟩

def copiesOf (p : PoolId) (heap : Heap) (smps : List SampleId) : List SampleId :=
  (heap.sampleAllocMany p (MachineInt.toSize smps.length)).2

/-- Only samples that were copied are pushed, and it is returned how many there are. -/
def PushesCopies (n : Nat) (p : PoolId) (connections : List Connection) (garbage : Nat → SampleId)
    (heap : Heap) (smps : List SampleId) : Prop :=
  ∃ w, write n p connections garbage heap smps = some w ∧
    (∀ queued ∈ w.queued, ∀ x ∈ queued, x ∈ copiesOf p heap smps) ∧
    w.rc = (copiesOf p heap smps).length

section
variable {n : Nat} {p : PoolId} {connections : List Connection} {garbage : Nat → SampleId}
  {smps cpys : List SampleId} {heap : Heap}

theorem connectionWrite_queued (c : Connection) (heap : Heap) (smps : List SampleId) :
    ∃ k, (connectionWrite c heap smps).2 = smps.take k := by
  unfold connectionWrite
  split
  · exact ⟨0, rfl⟩
  · obtain ⟨k, -, hpush⟩ | hpush := queuePushMany_spec c.push c.ret smps
    · rw [hpush]
      exact ⟨k, rfl⟩
    · rw [hpush]
      exact ⟨0, rfl⟩

theorem writeConnections_queued :
    ∀ queued ∈ (writeConnections n cpys heap connections).2, ∃ k, queued = cpys.take k := by
  induction connections generalizing heap with
  | nil =>
    intro queued hqueued
    cases hqueued
  | cons c cs ih =>
    rw [writeConnections]
    split
    · dsimp only
      rw [List.forall_mem_cons]
      exact ⟨connectionWrite_queued c heap cpys, ih⟩
    · exact ih

theorem sampleAllocMany_taken (heap : Heap) (p : PoolId) (cnt : Nat) :
    (heap.sampleAllocMany p cnt).2 = (heap.free p).take cnt := by
  induction cnt generalizing heap with
  | zero => rfl
  | succ cnt ih =>
    unfold Heap.sampleAllocMany
    rcases sampleAlloc_spec heap p with ⟨hnil, hnone⟩ | ⟨heap', x, hsome, ha⟩
    · rw [hnone, hnil]
      rfl
    · rw [hsome, ha.free, List.take_succ_cons, ← ih]

theorem copiesOf_length (hsize : smps.length < 2 ^ 31) :
    (copiesOf p heap smps).length = min smps.length (heap.free p).length := by
  rw [copiesOf, sampleAllocMany_taken, MachineInt.toSize_of_lt hsize, List.length_take]

theorem places_full (garbage : Nat → SampleId) (copies : List SampleId) :
    ((List.range copies.length).map fun i => copies.getD i (garbage i)) = copies := by
  apply List.ext_getElem
  · simp
  · intro i hi hi'
    simp [List.getD_eq_getElem?_getD, hi']

theorem write_eq (n : Nat) (connections : List Connection) (garbage : Nat → SampleId)
    (hle : (copiesOf p heap smps).length ≤ smps.length) :
    ∃ heap' : Heap, write n p connections garbage heap smps =
      some ⟨heap',
        (writeConnections n
          ((List.range smps.length).map fun i => (copiesOf p heap smps).getD i (garbage i))
          ((heap.sampleAllocMany p (MachineInt.toSize smps.length)).1.sampleCopyMany
            (copiesOf p heap smps) smps) connections).2,
        MachineInt.toInt smps.length⟩ :=
  ⟨_, if_neg (not_lt.mpr hle)⟩

/-- Any pool, any connections and any batch: only copies are pushed, and their number is returned,
if and only if the pool has a sample for each. -/
theorem write_pushes_copies_iff (n : Nat) (p : PoolId) (connections : List Connection)
    (garbage : Nat → SampleId) (heap : Heap) (smps : List SampleId) (hcnt : smps.length < 2 ^ 32) :
    PushesCopies n p connections garbage heap smps ↔
      smps.length < 2 ^ 31 ∧ smps.length ≤ (heap.free p).length := by
  constructor
  · rintro ⟨w, hwrite, -, hrc⟩
    have hle : (copiesOf p heap smps).length ≤ smps.length := by
      by_contra hlt
      have hnone : write n p connections garbage heap smps = none := if_pos (not_le.mp hlt)
      rw [hnone] at hwrite
      cases hwrite
    obtain ⟨heap', heq⟩ := write_eq n connections garbage hle
    rw [heq] at hwrite
    cases hwrite
    dsimp only at hrc
    have hsize : smps.length < 2 ^ 31 := by
      by_contra hge
      have hneg := MachineInt.toInt_neg (not_lt.mp hge) hcnt
      omega
    rw [MachineInt.toInt_of_lt hsize, copiesOf_length hsize] at hrc
    exact ⟨hsize, by omega⟩
  · rintro ⟨hsize, henough⟩
    have hlen : (copiesOf p heap smps).length = smps.length := by
      rw [copiesOf_length hsize, Nat.min_eq_left henough]
    obtain ⟨heap', heq⟩ := write_eq n connections garbage hlen.le
    refine ⟨_, heq, ?_, ?_⟩
    · rw [← hlen, places_full]
      intro queued hqueued x hx
      obtain ⟨k, rfl⟩ := writeConnections_queued queued hqueued
      exact List.mem_of_mem_take hx
    · rw [hlen]
      exact MachineInt.toInt_of_lt hsize

end

def exampleConnection : Connection := ⟨0, .initialized, fun _ => 1, 0⟩

theorem write_pushes_copies_two :
    [10, 10].length < 2 ^ 32 ∧ PushesCopies 0 0 [exampleConnection] (fun _ => 77) exampleHeap [10, 10] :=
  ⟨by decide, (write_pushes_copies_iff _ _ _ _ _ _ (by decide)).mpr ⟨by decide, by decide⟩⟩

/-- With three samples in the batch and two in the pool, a pointer that was never written is pushed,
and three is returned. -/
theorem write_pushes_garbage :
    ¬ ∀ (n : Nat) (p : PoolId) (connections : List Connection) (garbage : Nat → SampleId)
      (heap : Heap) (smps : List SampleId), smps.length < 2 ^ 32 →
      PushesCopies n p connections garbage heap smps := by
  intro hclaim
  obtain ⟨w, hwrite, hpushed, -⟩ :=
    hclaim 0 0 [exampleConnection] (fun _ => 77) exampleHeap [10, 10, 10] (by decide)
  have hcopies : copiesOf 0 exampleHeap [10, 10, 10] = [1, 2] := rfl
  obtain ⟨heap', heq⟩ := write_eq 0 [exampleConnection] (fun _ => 77)
    (show (copiesOf 0 exampleHeap [10, 10, 10]).length ≤ _ by rw [hcopies]; decide)
  rw [heq] at hwrite
  cases hwrite
  have hstray := hpushed [1, 2, 77] (by rw [hcopies]; exact List.mem_singleton.mpr rfl) 77 (by decide)
  rw [hcopies] at hstray
  exact absurd hstray (by decide)

end VillasNode.WebsocketBatch
