import Mathlib.Algebra.BigOperators.Group.Finset.Basic
import VillasNode.Lib.Runs
import VillasNode.Path.Conservation

/-!
# Samples in WebSocket connections

`websocket_write` of `lib/nodes/websocket.cpp` makes copies of its samples and
puts them into the queues of all connections of the node. The thread of the web
server takes them from there, sends them and gives them back. The reference of
a queue to a sample is counted only after the sample was put into the queue.
-/

namespace VillasNode.Websocket

/-- The node with its connections in state `INITIALIZED`. Only for these samples are queued. -/
structure Node where
  pool : PoolId
  connections : Nat
  queueSize : Nat

/-- Where `websocket_write` is. `cpys` is its array, of which the first `avail` places were written
by `sample_alloc_many`. -/
inductive Writer where
  | idle
  | allocating (smps cpys : List SampleId) (avail : Nat)
  /-- The loop over the connections is at `c`. -/
  | connecting (cpys : List SampleId) (avail c : Nat)
  /-- In `queue_push_many`. -/
  | pushing (cpys : List SampleId) (avail c i : Nat)
  /-- In `sample_incref_many`, with what is left of the samples that were pushed. -/
  | counting (cpys : List SampleId) (avail c : Nat) (smps : List SampleId)
  | dropping (smps : List SampleId)
deriving DecidableEq

/-- Where the callback for a writeable connection is. -/
inductive Service where
  | idle
  | pulling (c : Nat) (smps : List SampleId)
  | encoding (smps : List SampleId)
  | dropping (smps : List SampleId)
deriving DecidableEq

structure State where
  heap : Heap
  queue : Nat → List SampleId
  writer : Writer
  service : Service

inductive Action where
  /-- A call of `websocket_write`, with what its array `cpys` happens to hold. -/
  | write (smps cpys : List SampleId)
  | writer
  /-- The connection becomes writeable. -/
  | writeable (c : Nat)
  | service
deriving DecidableEq

/-- `cnt` of `websocket_protocol_cb`. -/
def pullCount : Nat := 128

/-- The next step of the writer. -/
def writerStep (n : Node) (s : State) : Option State :=
  match s.writer with
  | .idle => none
  | .allocating smps cpys avail =>
    match if avail < smps.length then s.heap.sampleAlloc n.pool else none with
    | some (heap, cpy) => some { s with heap, writer := .allocating smps (cpys.set avail cpy) (avail + 1) }
    | none =>
      some { s with heap := s.heap.sampleCopyMany (cpys.take avail) smps
                    writer := .connecting cpys avail 0 }
  | .connecting cpys avail c =>
    if c < n.connections then some { s with writer := .pushing cpys avail c 0 }
    else some { s with writer := .dropping (cpys.take avail) }
  | .pushing cpys avail c i =>
    match cpys[i]? with
    | none => some { s with writer := .counting cpys avail c (cpys.take i) }
    | some cpy =>
      if (s.queue c).length < n.queueSize then
        some { s with queue := Function.update s.queue c (s.queue c ++ [cpy])
                      writer := .pushing cpys avail c (i + 1) }
      else some { s with writer := .counting cpys avail c (cpys.take i) }
  | .counting cpys avail c [] => some { s with writer := .connecting cpys avail (c + 1) }
  | .counting cpys avail c (cpy :: smps) =>
    some { s with heap := s.heap.sampleIncref cpy, writer := .counting cpys avail c smps }
  | .dropping [] => some { s with writer := .idle }
  | .dropping (cpy :: smps) =>
    some { s with heap := s.heap.sampleDecref cpy, writer := .dropping smps }

/-- The next step of the callback. -/
def serviceStep (s : State) : Option State :=
  match s.service with
  | .idle => none
  | .pulling c smps =>
    match if smps.length < pullCount then s.queue c else [] with
    | smp :: queue =>
      some { s with queue := Function.update s.queue c queue, service := .pulling c (smps ++ [smp]) }
    | [] => some { s with service := if smps = [] then .idle else .encoding smps }
  | .encoding smps => some { s with service := .dropping smps }
  | .dropping [] => some { s with service := .idle }
  | .dropping (smp :: smps) =>
    some { s with heap := s.heap.sampleDecref smp, service := .dropping smps }

def step (n : Node) (s : State) : Action → Option State
  | .write smps cpys =>
    if s.writer = .idle ∧ cpys.length = smps.length then
      some { s with writer := .allocating smps cpys 0 }
    else none
  | .writer => writerStep n s
  | .writeable c =>
    if s.service = .idle ∧ c < n.connections then some { s with service := .pulling c [] } else none
  | .service => serviceStep s

def start (heap : Heap) : State := ⟨heap, fun _ => [], .idle, .idle⟩

/-! ## Who has the samples -/

/-- The samples that the writer still uses. -/
def Writer.refs : Writer → List SampleId
  | .idle => []
  | .allocating _ cpys avail => cpys.take avail
  | .connecting cpys avail _ => cpys.take avail
  | .pushing cpys avail _ _ => cpys.take avail
  | .counting cpys avail _ _ => cpys.take avail
  | .dropping smps => smps

/-- The samples that are in a queue and for which no reference was counted yet. -/
def Writer.uncounted : Writer → List SampleId
  | .pushing cpys _ _ i => cpys.take i
  | .counting _ _ _ smps => smps
  | _ => []

def Service.refs : Service → List SampleId
  | .idle => []
  | .pulling _ smps => smps
  | .encoding smps => smps
  | .dropping smps => smps

def queued (connections : Nat) (queue : Nat → List SampleId) : Multiset SampleId :=
  ∑ c ∈ Finset.range connections, (queue c : Multiset SampleId)

def State.holders (n : Node) (s : State) : Multiset SampleId :=
  s.writer.refs + (s.service.refs + queued n.connections s.queue)

/-- A block is in its pool, and only once, exactly when neither the writer nor the web server nor a
queue has it, nor anybody else, who has `R`. -/
structure Safe (n : Node) (R : Multiset SampleId) (s : State) : Prop where
  nodup : ∀ p, (s.heap.free p).Nodup
  free_iff : ∀ p, ∀ x ∈ (s.heap.pools p).blocks, x ∈ s.heap.free p ↔ x ∉ s.holders n + R

/-- The web server does not give the only counted reference to a sample back before the writer has
counted all others, and the writer pushes no pointer that it has not got from the pool. -/
def InTime (n : Node) (s : State) : Action → Prop
  | .write .. | .writeable _ => True
  | .writer =>
    match s.writer with
    | .pushing cpys avail c i => i < cpys.length → (s.queue c).length < n.queueSize → i < avail
    | _ => True
  | .service =>
    match s.service with
    | .dropping (smp :: _) => (s.heap.samples smp).refcnt = 1 → smp ∉ s.writer.uncounted
    | _ => True

instance decidableInTime (n : Node) (s : State) : ∀ a, Decidable (InTime n s a)
  | .write .. | .writeable _ => .isTrue trivial
  | .writer =>
    match h : s.writer with
    | .pushing cpys avail c i =>
      decidable_of_iff (i < cpys.length → (s.queue c).length < n.queueSize → i < avail)
        (by simp [InTime, h])
    | .idle | .allocating .. | .connecting .. | .counting .. | .dropping _ =>
      .isTrue (by simp [InTime, h])
  | .service =>
    match h : s.service with
    | .dropping (smp :: _) =>
      decidable_of_iff ((s.heap.samples smp).refcnt = 1 → smp ∉ s.writer.uncounted)
        (by simp [InTime, h])
    | .idle | .pulling .. | .encoding _ | .dropping [] => .isTrue (by simp [InTime, h])

/-! ## References that are still to be counted -/

/-- `H` are all references, and the counts have all of them but `U`. No sample is without a counted
reference. -/
def Counted (z : SampleId → Sample) (h : Heap) (U H : Multiset SampleId) : Prop :=
  ∃ C, Balanced z h C ∧ C + U = H ∧ ∀ x ∈ U, x ∈ C

section
variable {z : SampleId → Sample} {h h' : Heap} {U H : Multiset SampleId} {p : PoolId} {x : SampleId}

theorem mem_counted {C : Multiset SampleId} (heq : C + U = H) (hU : ∀ x ∈ U, x ∈ C) :
    x ∈ H ↔ x ∈ C := by
  rw [← heq, Multiset.mem_add]
  exact or_iff_left_of_imp (hU x)

theorem Counted.free_iff (hc : Counted z h U H) (hx : x ∈ (h.pools p).blocks) :
    x ∈ h.free p ↔ x ∉ H := by
  obtain ⟨C, hb, heq, hU⟩ := hc
  rw [hb.free_iff p x hx, mem_counted heq hU]

theorem Counted.nodup (hc : Counted z h U H) : (h.free p).Nodup := by
  obtain ⟨C, hb, -, -⟩ := hc
  exact hb.nodup p

theorem Counted.alloc (hc : Counted z h 0 H) (ha : Allocated h h' p x) : Counted z h' 0 (x ::ₘ H) := by
  obtain ⟨C, hb, heq, -⟩ := hc
  refine ⟨x ::ₘ C, (hb.alloc ha).1, ?_, fun x hx => absurd hx (Multiset.notMem_zero x)⟩
  rw [← heq, Multiset.cons_add]

theorem Counted.copy (hc : Counted z h U H) {dsts : List SampleId} (srcs : List SampleId)
    (hdsts : ∀ x ∈ dsts, x ∈ H) : Counted z (h.sampleCopyMany dsts srcs) U H := by
  obtain ⟨C, hb, heq, hU⟩ := hc
  have hdsts' : ∀ x ∈ dsts, x ∈ C := fun x hx => (mem_counted heq hU).mp (hdsts x hx)
  exact ⟨C, (sampleCopyMany_spec dsts srcs hdsts' hb).1, heq, hU⟩

theorem Counted.pass (hc : Counted z h U H) (hx : x ∈ H) : Counted z h (x ::ₘ U) (x ::ₘ H) := by
  obtain ⟨C, hb, heq, hU⟩ := hc
  refine ⟨C, hb, by rw [← heq, Multiset.add_cons], ?_⟩
  intro y hy
  rcases Multiset.mem_cons.mp hy with rfl | hy
  · exact (mem_counted heq hU).mp hx
  · exact hU y hy

theorem Counted.incref (hc : Counted z h (x ::ₘ U) H) : Counted z (h.sampleIncref x) U H := by
  obtain ⟨C, hb, heq, hU⟩ := hc
  refine ⟨x ::ₘ C, hb.incref (hU x (Multiset.mem_cons_self x U)), ?_, ?_⟩
  · rw [← heq, Multiset.cons_add, Multiset.add_cons]
  · exact fun y hy => Multiset.mem_cons_of_mem (hU y (Multiset.mem_cons_of_mem hy))

theorem Counted.decref (hc : Counted z h U (x ::ₘ H)) (hlast : (h.samples x).refcnt = 1 → x ∉ U) :
    Counted z (h.sampleDecref x) U H := by
  obtain ⟨C, hb, heq, hU⟩ := hc
  have hx : x ∈ C := (mem_counted heq hU).mp (Multiset.mem_cons_self x H)
  obtain ⟨q, hq⟩ := hb.held x hx
  have hcount := hq.refcnt
  obtain ⟨C, rfl⟩ := Multiset.exists_cons_of_mem hx
  rw [Multiset.count_cons_self] at hcount
  refine ⟨C, hb.decref, ?_, ?_⟩
  · rw [Multiset.cons_add] at heq
    exact (Multiset.cons_inj_right x).mp heq
  · intro y hy
    rcases eq_or_ne y x with rfl | hne
    · have hpos : C.count y ≠ 0 := fun hzero => hlast (by rw [hcount, hzero]; rfl) hy
      exact Multiset.count_ne_zero.mp hpos
    · exact (Multiset.mem_cons.mp (hU y hy)).resolve_left hne

end

/-! ## Every interleaving -/

def Writer.WellFormed (n : Node) : Writer → Prop
  | .allocating smps cpys avail => cpys.length = smps.length ∧ avail ≤ cpys.length
  | .pushing _ avail c i => c < n.connections ∧ i ≤ avail
  | .counting cpys avail _ smps => ∀ x ∈ smps, x ∈ cpys.take avail
  | _ => True

def Service.WellFormed (n : Node) : Service → Prop
  | .pulling c _ => c < n.connections
  | _ => True

structure Inv (z : SampleId → Sample) (n : Node) (R : Multiset SampleId) (s : State) : Prop where
  counted : Counted z s.heap s.writer.uncounted (s.holders n + R)
  writer : s.writer.WellFormed n
  service : s.service.WellFormed n

section
variable {z : SampleId → Sample} {n : Node} {R : Multiset SampleId} {s s' : State}

theorem queued_update {connections c : Nat} (hc : c < connections) (queue : Nat → List SampleId)
    (smps : List SampleId) :
    queued connections (Function.update queue c smps) + queue c = queued connections queue + smps := by
  unfold queued
  have hmem : c ∈ Finset.range connections := Finset.mem_range.mpr hc
  rw [← Finset.add_sum_erase _ _ hmem, ← Finset.add_sum_erase _ (fun c => (queue c : Multiset SampleId)) hmem,
    Function.update_self]
  have hrest : ∑ d ∈ (Finset.range connections).erase c,
        ((Function.update queue c smps d : List SampleId) : Multiset SampleId) =
      ∑ d ∈ (Finset.range connections).erase c, (queue d : Multiset SampleId) := by
    apply Finset.sum_congr rfl
    intro d hd
    rw [Function.update_of_ne (Finset.ne_of_mem_erase hd)]
  rw [hrest]
  abel

theorem queued_push {connections c : Nat} (hc : c < connections) (queue : Nat → List SampleId)
    (x : SampleId) :
    queued connections (Function.update queue c (queue c ++ [x])) = x ::ₘ queued connections queue := by
  have h := queued_update hc queue (queue c ++ [x])
  rw [← Multiset.coe_add, ← add_assoc, add_right_comm] at h
  have := add_right_cancel h
  rw [this, Multiset.coe_singleton, add_comm, Multiset.singleton_add]

theorem queued_pull {connections c : Nat} (hc : c < connections) {queue : Nat → List SampleId}
    {x : SampleId} {smps : List SampleId} (heq : queue c = x :: smps) :
    x ::ₘ queued connections (Function.update queue c smps) = queued connections queue := by
  have h := queued_update hc queue smps
  rw [heq, ← Multiset.cons_coe, Multiset.add_cons, ← Multiset.cons_add] at h
  exact add_right_cancel h

theorem take_set_succ {cpys : List SampleId} {i : Nat} (hi : i < cpys.length) (x : SampleId) :
    (cpys.set i x).take (i + 1) = cpys.take i ++ [x] := by
  rw [List.take_add_one, List.getElem?_set_self hi, List.take_set_of_le (le_refl i)]
  rfl

theorem Inv.writer_step (hinv : Inv z n R s) (htime : InTime n s .writer)
    (hstep : writerStep n s = some s') : Inv z n R s' := by
  obtain ⟨heap, queue, writer, service⟩ := s
  obtain ⟨hcounted, hwriter, hservice⟩ := hinv
  unfold State.holders at hcounted
  unfold writerStep at hstep
  cases writer with
  | idle => cases hstep
  | allocating smps cpys avail =>
    obtain ⟨hlen, hle⟩ := hwriter
    dsimp only at hstep
    split at hstep
    · rename_i h x halloc
      cases hstep
      split at halloc
      · rcases sampleAlloc_spec heap n.pool with ⟨-, hnone⟩ | ⟨h', x', hsome, ha⟩
        · rw [hnone] at halloc
          cases halloc
        · rw [hsome] at halloc
          cases halloc
          refine ⟨?_, ⟨by rw [List.length_set]; exact hlen, by rw [List.length_set]; omega⟩, hservice⟩
          have hnew := hcounted.alloc ha
          unfold State.holders Writer.refs
          dsimp only
          rw [take_set_succ (by omega), ← Multiset.coe_add, Multiset.coe_singleton,
            add_comm _ ({x} : Multiset SampleId), Multiset.singleton_add, Multiset.cons_add,
            Multiset.cons_add]
          exact hnew
      · cases halloc
    · cases hstep
      refine ⟨hcounted.copy smps ?_, trivial, hservice⟩
      intro x hx
      simp [Writer.refs, hx]
  | connecting cpys avail c =>
    dsimp only at hstep
    split at hstep
    · cases hstep
      exact ⟨hcounted, ⟨‹c < n.connections›, Nat.zero_le avail⟩, hservice⟩
    · cases hstep
      exact ⟨hcounted, trivial, hservice⟩
  | pushing cpys avail c i =>
    obtain ⟨hc, hle⟩ := hwriter
    have hpushed : ∀ x ∈ cpys.take i, x ∈ cpys.take avail :=
      fun x hx => (List.take_sublist_take_left hle).subset hx
    dsimp only at hstep
    split at hstep
    · cases hstep
      exact ⟨hcounted, hpushed, hservice⟩
    · rename_i x hget
      obtain ⟨hlt, hx⟩ := List.getElem?_eq_some_iff.mp hget
      split at hstep
      · rename_i hroom
        cases hstep
        have havail : i < avail := htime hlt hroom
        refine ⟨?_, ⟨hc, havail⟩, hservice⟩
        have hmem : x ∈ cpys.take avail := by
          rw [← hx]
          exact List.mem_take_iff_getElem.mpr ⟨i, by omega, rfl⟩
        have hpass := hcounted.pass (x := x) (by simp [Writer.refs, hmem])
        unfold State.holders Writer.uncounted Writer.refs at *
        dsimp only at *
        rw [queued_push hc, List.take_add_one, hget, Option.toList_some, ← Multiset.coe_add,
          Multiset.coe_singleton, add_comm _ ({x} : Multiset SampleId), Multiset.singleton_add,
          Multiset.add_cons, Multiset.add_cons, Multiset.cons_add]
        exact hpass
      · cases hstep
        exact ⟨hcounted, hpushed, hservice⟩
  | counting cpys avail c smps =>
    cases smps with
    | nil =>
      cases hstep
      exact ⟨hcounted, trivial, hservice⟩
    | cons x smps =>
      cases hstep
      exact ⟨hcounted.incref, fun y hy => hwriter y (List.mem_cons_of_mem x hy), hservice⟩
  | dropping smps =>
    cases smps with
    | nil =>
      cases hstep
      exact ⟨hcounted, trivial, hservice⟩
    | cons x smps =>
      cases hstep
      unfold Writer.refs at hcounted
      rw [← Multiset.cons_coe, Multiset.cons_add, Multiset.cons_add] at hcounted
      exact ⟨hcounted.decref fun _ => Multiset.notMem_zero x, trivial, hservice⟩

theorem Inv.service_step (hinv : Inv z n R s) (htime : InTime n s .service)
    (hstep : serviceStep s = some s') : Inv z n R s' := by
  obtain ⟨heap, queue, writer, service⟩ := s
  obtain ⟨hcounted, hwriter, hservice⟩ := hinv
  unfold State.holders at hcounted
  unfold serviceStep at hstep
  cases service with
  | idle => cases hstep
  | pulling c smps =>
    dsimp only at hstep
    split at hstep
    · rename_i x rest hqueue
      cases hstep
      have hhead : queue c = x :: rest := by
        split at hqueue
        · exact hqueue
        · cases hqueue
      refine ⟨?_, hwriter, hservice⟩
      unfold State.holders Service.refs at *
      dsimp only at *
      rw [← queued_pull hservice hhead, Multiset.add_cons, ← Multiset.cons_add] at hcounted
      rw [← Multiset.coe_add, Multiset.coe_singleton, add_comm _ ({x} : Multiset SampleId),
        Multiset.singleton_add]
      exact hcounted
    · split at hstep
      · cases hstep
        subst ‹smps = []›
        exact ⟨hcounted, hwriter, trivial⟩
      · cases hstep
        exact ⟨hcounted, hwriter, trivial⟩
  | encoding smps =>
    cases hstep
    exact ⟨hcounted, hwriter, trivial⟩
  | dropping smps =>
    cases smps with
    | nil =>
      cases hstep
      exact ⟨hcounted, hwriter, trivial⟩
    | cons x smps =>
      cases hstep
      unfold Service.refs at hcounted
      rw [← Multiset.cons_coe, Multiset.cons_add, Multiset.add_cons, Multiset.cons_add] at hcounted
      exact ⟨hcounted.decref htime, hwriter, trivial⟩

theorem Inv.step {a : Action} (hinv : Inv z n R s) (htime : InTime n s a)
    (hstep : step n s a = some s') : Inv z n R s' := by
  cases a with
  | write smps cpys =>
    unfold Websocket.step at hstep
    dsimp only at hstep
    split at hstep
    · rename_i hidle
      cases hstep
      have hcounted := hinv.counted
      unfold State.holders at hcounted
      rw [hidle.1] at hcounted
      refine ⟨?_, ⟨hidle.2, Nat.zero_le _⟩, hinv.service⟩
      exact hcounted
    · cases hstep
  | writer => exact hinv.writer_step htime hstep
  | writeable c =>
    unfold Websocket.step at hstep
    dsimp only at hstep
    split at hstep
    · rename_i hidle
      cases hstep
      have hcounted := hinv.counted
      unfold State.holders at hcounted
      rw [hidle.1] at hcounted
      exact ⟨hcounted, hinv.writer, hidle.2⟩
    · cases hstep
  | service => exact hinv.service_step htime hstep

theorem Inv.start {heap : Heap} (hb : Balanced z heap R) : Inv z n R (start heap) := by
  refine ⟨⟨R, hb, ?_, fun x hx => absurd hx (Multiset.notMem_zero x)⟩, trivial, trivial⟩
  simp [State.holders, queued, Websocket.start, Writer.refs, Service.refs, Writer.uncounted]

theorem Inv.safe (hinv : Inv z n R s) : Safe n R s :=
  ⟨fun _ => hinv.counted.nodup, fun _ _ hx => hinv.counted.free_iff hx⟩

theorem Writer.uncounted_refs {w : Writer} (hw : w.WellFormed n) {x : SampleId}
    (hx : x ∈ w.uncounted) : x ∈ w.refs := by
  cases w with
  | pushing cpys avail c i => exact (List.take_sublist_take_left hw.2).subset hx
  | counting cpys avail c smps => exact hw x hx
  | idle | allocating | connecting | dropping => cases hx

theorem Inv.early (hinv : Inv z n R s) (hearly : ¬ InTime n s .service)
    (hstep : serviceStep s = some s') : ¬ Safe n R s' := by
  obtain ⟨heap, queue, writer, service⟩ := s
  obtain ⟨⟨C, hb, heq, hU⟩, hwriter, -⟩ := hinv
  unfold InTime at hearly
  cases service with
  | idle | pulling | encoding => exact absurd trivial hearly
  | dropping smps =>
    cases smps with
    | nil => exact absurd trivial hearly
    | cons x smps =>
      dsimp only at hearly hb hU
      rw [Classical.not_imp, not_not] at hearly
      obtain ⟨hlast, hx⟩ := hearly
      cases hstep
      intro hsafe
      obtain ⟨C, rfl⟩ := Multiset.exists_cons_of_mem (hU x hx)
      obtain ⟨p, hp⟩ := hb.mem_cons_held
      have hone := hp.refcnt
      have hnot : x ∉ C := by
        rw [← Multiset.count_eq_zero]
        omega
      have hblock : x ∈ ((heap.sampleDecref x).pools p).blocks := by
        rw [Heap.decref_pools]
        exact hp.block
      have hfree := (hb.decref.free_iff p x hblock).mpr hnot
      apply (hsafe.free_iff p x hblock).mp hfree
      simp [State.holders, Writer.uncounted_refs hwriter hx]

/-- Any number of connections, any batches and any interleaving: as long as the counting is in time,
and the first time that a sample is given back before. -/
theorem write_safe {heap : Heap} {actions : List Action} (hb : Balanced z heap R)
    (htime : Runs.Along (Websocket.step n) (InTime n) (start heap) actions)
    (hrun : Runs.run (Websocket.step n) (start heap) actions = some s) :
    Safe n R s ∧ ∀ s', Websocket.step n s .service = some s' → ¬ InTime n s .service → ¬ Safe n R s' := by
  have hinv : Inv z n R s :=
    Runs.invariant (fun _ _ _ hinv htime hstep => Inv.step hinv htime hstep) (.start hb) htime hrun
  exact ⟨hinv.safe, fun s' hstep hearly => hinv.early hearly hstep⟩

end

/-- One connection. The pool of the node has the blocks 1 and 2. -/
def exampleNode : Node := ⟨0, 1, 1024⟩

/-- A sample is allocated, copied and pushed, and the web server takes it. -/
def taken : List Action :=
  [.write [10] [0], .writer, .writer, .writer, .writer, .writeable 0, .service, .service, .service]

/-- The writer counts the reference before it is given back. -/
def countedFirst : List Action :=
  taken ++ [.writer, .writer, .service, .writer, .writer, .writer, .writer, .service]

theorem write_safe_countedFirst :
    ∃ s, Runs.run (step exampleNode) (start exampleHeap) countedFirst = some s ∧
      Safe exampleNode {10} s :=
  ⟨_, rfl, (@write_safe _ _ _ _ _ countedFirst exampleHeap_balanced (by decide) rfl).1⟩

/-- The web server gives the sample back before the writer has counted its reference. -/
theorem write_not_safe :
    ¬ ∀ (n : Node) (z : SampleId → Sample) (heap : Heap) (R : Multiset SampleId)
      (actions : List Action) (s : State), Balanced z heap R →
      Runs.run (step n) (start heap) actions = some s → Safe n R s := by
  intro hclaim
  have hsafe := hclaim exampleNode _ exampleHeap {10} (taken ++ [.service]) _ exampleHeap_balanced rfl
  apply (hsafe.free_iff 0 1 (by decide)).mp (by decide)
  exact Multiset.mem_add.mpr (.inl (Multiset.mem_add.mpr (.inl (by decide))))

end VillasNode.Websocket
