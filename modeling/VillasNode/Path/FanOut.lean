import VillasNode.Lib.Runs
import VillasNode.Path.Forwarding

/-!
# Every reader gets every sample

The steps of `loopback_internal_read` keep the invariant too, and so does every
run of the master and the readers.
-/

namespace VillasNode.FanOut

variable {σ : Type*} {z : SampleId → Sample} {h h' : Heap} {R : Multiset SampleId}
  {s s' : System σ} {i j : Nat} {P : PoolId} {x x' : Secondary}

/-! ## The steps of a reader -/

theorem view_copyPayload {capacity : Nat} {dst src : Payload} (hle : src.length ≤ capacity) :
    view (Heap.copyPayload capacity dst src) = view src := by
  unfold view Heap.copyPayload
  rw [min_eq_left hle]
  simp only [Prod.mk.injEq, true_and]
  apply List.map_congr_left
  intro k hk
  rw [if_pos (List.mem_range.mp hk)]

theorem copyMany_payload {dsts srcs : List SampleId} {y : SampleId} (hy : y ∉ dsts) :
    (h.sampleCopyMany dsts srcs).payload y = h.payload y := by
  induction srcs generalizing dsts h with
  | nil => simp [Heap.sampleCopyMany]
  | cons src srcs ih =>
    cases dsts with
    | nil => simp [Heap.sampleCopyMany]
    | cons d dsts =>
      rw [List.mem_cons, not_or] at hy
      have hstep : h.sampleCopyMany (d :: dsts) (src :: srcs) =
          (h.sampleCopy d src).sampleCopyMany dsts srcs := rfl
      rw [hstep, ih hy.2]
      unfold Heap.sampleCopy
      rw [Heap.setPayload_payload, if_neg hy.1]

theorem copyMany_views {dsts srcs : List SampleId} (hlen : srcs.length ≤ dsts.length)
    (hnodup : dsts.Nodup) (hapart : ∀ d ∈ dsts, d ∉ srcs)
    (hfits : ∀ d ∈ dsts, ∀ y ∈ srcs, (h.payload y).length ≤ (h.samples d).capacity) :
    (dsts.take srcs.length).map (fun d => view ((h.sampleCopyMany dsts srcs).payload d)) =
      srcs.map fun y => view (h.payload y) := by
  induction srcs generalizing dsts h with
  | nil => simp
  | cons y srcs ih =>
    cases dsts with
    | nil => simp at hlen
    | cons d dsts =>
      obtain ⟨hd, hnodup⟩ := List.nodup_cons.mp hnodup
      have hsrcs : ∀ y' ∈ srcs, y' ≠ d := by
        rintro y' hy' rfl
        exact hapart y' (by simp) (by simp [hy'])
      have hpayload : ∀ y' ≠ d, (h.sampleCopy d y).payload y' = h.payload y' := by
        intro y' hy'
        unfold Heap.sampleCopy
        rw [Heap.setPayload_payload, if_neg hy']
      have hcapacity : ∀ d', ((h.sampleCopy d y).samples d').capacity = (h.samples d').capacity := by
        intro d'
        unfold Heap.sampleCopy
        rw [Heap.setPayload_samples]
      have hrest := ih (h := h.sampleCopy d y) (by simpa using hlen) hnodup
        (fun d' hd' hmem => hapart d' (by simp [hd']) (by simp [hmem])) (by
          intro d' hd' y' hy'
          rw [hpayload y' (hsrcs y' hy'), hcapacity]
          exact hfits d' (by simp [hd']) y' (by simp [hy']))
      have hstep : h.sampleCopyMany (d :: dsts) (y :: srcs) =
          (h.sampleCopy d y).sampleCopyMany dsts srcs := rfl
      have hfirst : ((h.sampleCopy d y).sampleCopyMany dsts srcs).payload d =
          Heap.copyPayload (h.samples d).capacity (h.payload d) (h.payload y) := by
        rw [copyMany_payload hd]
        unfold Heap.sampleCopy
        rw [Heap.setPayload_payload, if_pos rfl]
      rw [hstep, List.length_cons, List.take_succ_cons, List.map_cons, List.map_cons, hrest, hfirst,
        view_copyPayload (hfits d (by simp) y (by simp))]
      congr 1
      apply List.map_congr_left
      intro y' hy'
      rw [hpayload y' (hsrcs y' hy')]

theorem Inv.own_apart (hinv : Inv z i P s) (hget : s.secondaries[j]? = some x) {d y : SampleId}
    {q : PoolId} (hd : d ∈ x.filled ++ x.smps) (hq : q ≠ x.pool)
    (hy : y ∈ (s.path.heap.pools q).blocks) : y ≠ d := by
  rintro rfl
  obtain ⟨R, hb⟩ := hinv.balanced
  exact hq (hb.apart _ _ _ hy ((hinv.done j x hget).own y hd))

theorem Inv.reader (hinv : Inv z i P s) (hget : s.secondaries[j]? = some x) {heap : Heap}
    (hpools : heap.pools = s.path.heap.pools)
    (hpayload : ∀ q ≠ x.pool, ∀ y ∈ (s.path.heap.pools q).blocks,
      heap.payload y = s.path.heap.payload y)
    (hconfig : x'.pool = x.pool ∧ x'.loopback.state = x.loopback.state)
    (hshared : ∀ y ∈ x'.cpys ++ x'.loopback.queue, y ∈ x.cpys ++ x.loopback.queue)
    (hown : ∀ d ∈ x'.filled ++ x'.smps, d ∈ (s.path.heap.pools x.pool).blocks)
    (hnodup : (x'.filled ++ x'.smps).Nodup) (hlength : x'.cpys.length ≤ x'.smps.length)
    (hcopied : x'.copied → (x'.smps.take x'.cpys.length).map (fun d => view (heap.payload d)) =
      x'.cpys.map fun y => view (heap.payload y))
    (hstream : x'.returned.map view ++
        (x'.cpys ++ x'.loopback.queue).map (fun y => view (s.path.heap.payload y)) =
      x.returned.map view ++
        (x.cpys ++ x.loopback.queue).map fun y => view (s.path.heap.payload y))
    (hbalanced : ∀ R, Balanced z s.path.heap (x.refs + R) → Balanced z heap (x'.refs + R)) :
    Inv z i P { s.setHeap heap with secondaries := s.secondaries.set j x' } := by
  have hok := hinv.done j x hget
  have hP : ∀ y ∈ (s.path.heap.pools P).blocks, heap.payload y = s.path.heap.payload y :=
    hpayload P hok.pool.1.symm
  have hpending : ∀ y ∈ s.phase.pending j, heap.payload y = s.path.heap.payload y :=
    fun y hy => hP y (Phase.pending_blocks hinv.phase hy)
  have hcontents : ∀ y ∈ x'.cpys ++ x'.loopback.queue, heap.payload y = s.path.heap.payload y :=
    fun y hy => hP y (hok.shared y (hshared y hy))
  refine hinv.set heap s.phase hget hpools hinv.phase (fun _ _ => rfl) hpayload hconfig.1 ?_ ?_
  · refine ⟨?_, ?_, ?_, ?_, ?_, ?_, hnodup, hlength, hcopied, ?_⟩
    · unfold Loopback.running
      rw [hconfig.2]
      exact hok.running
    · rw [hconfig.1]
      exact hok.pool
    · show (heap.pools x'.pool).capacity = (heap.pools P).capacity
      rw [hconfig.1, hpools]
      exact hok.capacity
    · show ∀ y ∈ x'.cpys ++ x'.loopback.queue, y ∈ (heap.pools P).blocks
      rw [hpools]
      exact fun y hy => hok.shared y (hshared y hy)
    · intro y hy
      show (heap.payload y).length ≤ (heap.pools P).capacity
      rw [hpools]
      rw [← List.append_assoc] at hy
      obtain hy | hy := List.mem_append.mp hy
      · rw [hcontents y hy]
        have hmem := hshared y hy
        exact hok.short y (by rw [← List.append_assoc]; exact List.mem_append.mpr (.inl hmem))
      · rw [hpending y hy]
        exact hok.short y (by rw [← List.append_assoc]; exact List.mem_append.mpr (.inr hy))
    · show ∀ d ∈ x'.filled ++ x'.smps, d ∈ (heap.pools x'.pool).blocks
      rw [hpools, hconfig.1]
      exact hown
    · have hold := hok.stream
      rw [System.stream_eq] at hold ⊢
      have hnow : (x'.cpys ++ x'.loopback.queue).map (fun y => view (heap.payload y)) =
          (x'.cpys ++ x'.loopback.queue).map fun y => view (s.path.heap.payload y) := by
        apply List.map_congr_left
        intro y hy
        rw [hcontents y hy]
      have hlater : (s.phase.pending j).map (fun y => view (heap.payload y)) =
          (s.phase.pending j).map fun y => view (s.path.heap.payload y) := by
        apply List.map_congr_left
        intro y hy
        rw [hpending y hy]
      show s.kept.map view = x'.returned.map view ++
          (x'.cpys ++ x'.loopback.queue).map (fun y => view (heap.payload y)) ++
        (s.phase.pending j).map fun y => view (heap.payload y)
      rw [hnow, hlater, hstream, hold]
  · intro R rest hb
    refine ⟨0, ?_⟩
    rw [zero_add]
    exact hbalanced _ hb

theorem SecondaryOk.cpys_nil (hok : SecondaryOk s P j x) (hsmps : x.smps = []) : x.cpys = [] := by
  have hlen := hok.length
  rw [hsmps] at hlen
  simpa using hlen

theorem Inv.reader_begin (hinv : Inv z i P s) (hget : s.secondaries[j]? = some x)
    {heap : Heap} (hstep : x.step s.path.heap .begin = some (heap, x')) :
    Inv z i P { s.setHeap heap with secondaries := s.secondaries.set j x' } := by
  have hok := hinv.done j x hget
  obtain ⟨R, hb⟩ := hinv.balanced
  simp only [Secondary.step] at hstep
  split at hstep
  · rename_i hidle
    cases hstep
    have hcpys := hok.cpys_nil hidle.1
    obtain ⟨ha, -, -⟩ := sampleAllocMany_spec s.path.heap x.pool x.vectorize hb
    have harea : ∀ d ∈ (s.path.heap.sampleAllocMany x.pool x.vectorize).2,
        d ∈ (s.path.heap.pools x.pool).blocks := by
      intro d hd
      rw [ha.taken] at hd
      exact hb.area _ d (List.mem_of_mem_take hd)
    refine hinv.reader hget ha.pools ?_ ⟨rfl, rfl⟩ (fun _ hy => hy) ?_ ?_ ?_ ?_ rfl ?_
    · intro q hq y hy
      have hnot : y ∉ (s.path.heap.sampleAllocMany x.pool x.vectorize).2 :=
        fun hmem => hq (hb.apart _ _ _ hy (harea y hmem))
      unfold Heap.payload
      rw [ha.samples y hnot]
    · intro d hd
      rw [hidle.2] at hd
      exact harea d hd
    · rw [hidle.2, List.nil_append, ha.taken]
      exact (hb.nodup x.pool).sublist (List.take_sublist ..)
    · rw [hcpys]
      exact Nat.zero_le _
    · rw [hcpys]
      simp
    · intro R' hb'
      obtain ⟨-, hb₁, -⟩ := sampleAllocMany_spec s.path.heap x.pool x.vectorize hb'
      convert hb₁ using 1
      simp only [Secondary.refs, hidle.1, Multiset.coe_nil]
      abel
  · simp at hstep

theorem Inv.reader_pull (hinv : Inv z i P s) (hget : s.secondaries[j]? = some x)
    {heap : Heap} (hstep : x.step s.path.heap .pull = some (heap, x')) :
    Inv z i P { s.setHeap heap with secondaries := s.secondaries.set j x' } := by
  have hok := hinv.done j x hget
  simp only [Secondary.step] at hstep
  split at hstep
  · simp at hstep
  rename_i y queue hqueue
  split at hstep
  · rename_i hroom
    cases hstep
    refine hinv.reader hget rfl (fun _ _ _ _ => rfl) ⟨rfl, rfl⟩ ?_ hok.own hok.nodup ?_ ?_ ?_ ?_
    · intro d hd
      rw [hqueue]
      simpa using hd
    · rw [List.length_append]
      exact hroom.2
    · simp [hroom.1]
    · simp [hqueue]
    · intro R' hb'
      convert hb' using 1
      simp only [Secondary.refs, hqueue, ← Multiset.coe_add, ← Multiset.cons_coe,
        ← Multiset.singleton_add, Multiset.coe_nil]
      abel
  · simp at hstep

theorem Inv.reader_copy (hinv : Inv z i P s) (hget : s.secondaries[j]? = some x)
    {heap : Heap} (hstep : x.step s.path.heap .copy = some (heap, x')) :
    Inv z i P { s.setHeap heap with secondaries := s.secondaries.set j x' } := by
  have hok := hinv.done j x hget
  obtain ⟨R, hb⟩ := hinv.balanced
  simp only [Secondary.step] at hstep
  split at hstep
  · cases hstep
    have hheld : ∀ d ∈ x.smps, d ∈ x.refs := by
      intro d hd
      unfold Secondary.refs
      simp [hd]
    have hnot : ∀ q ≠ x.pool, ∀ y ∈ (s.path.heap.pools q).blocks, y ∉ x.smps :=
      fun q hq y hy hmem => hinv.own_apart hget (List.mem_append.mpr (.inr hmem)) hq hy rfl
    have hcpys : ∀ y ∈ x.cpys, y ∈ (s.path.heap.pools P).blocks :=
      fun y hy => hok.shared y (by simp [hy])
    obtain ⟨-, ht⟩ := sampleCopyMany_spec x.smps x.cpys
      (fun d hd => by simp [mem_secondaryRefs hget (hheld d hd)]) hb
    refine hinv.reader hget ht.pools ?_ ⟨rfl, rfl⟩ (fun _ hy => hy) hok.own hok.nodup hok.length ?_
      rfl ?_
    · exact fun q hq y hy => copyMany_payload (hnot q hq y hy)
    · intro _
      have hcontents : ∀ y ∈ x.cpys, (s.path.heap.sampleCopyMany x.smps x.cpys).payload y =
          s.path.heap.payload y :=
        fun y hy => copyMany_payload (hnot P hok.pool.1.symm y (hcpys y hy))
      rw [copyMany_views hok.length (List.Nodup.of_append_right hok.nodup)]
      · apply List.map_congr_left
        intro y hy
        rw [hcontents y hy]
      · exact fun d hd hmem => hnot P hok.pool.1.symm d (hcpys d hmem) hd
      · intro d hd y hy
        have hcapacity := (hb.held_in (by simp [mem_secondaryRefs hget (hheld d hd)])
          (hok.own d (by simp [hd]))).2
        rw [hcapacity, hok.capacity]
        exact hok.short y (by simp [hy])
    · intro R' hb'
      exact (sampleCopyMany_spec x.smps x.cpys (fun d hd => by simp [hheld d hd]) hb').1
  · simp at hstep

theorem Inv.reader_release (hinv : Inv z i P s) (hget : s.secondaries[j]? = some x)
    {heap : Heap} (hstep : x.step s.path.heap .release = some (heap, x')) :
    Inv z i P { s.setHeap heap with secondaries := s.secondaries.set j x' } := by
  have hok := hinv.done j x hget
  simp only [Secondary.step] at hstep
  split at hstep
  · rename_i hcopied
    cases hstep
    have ht := Touches.decrefMany s.path.heap x.cpys []
    have hpayload : (s.path.heap.sampleDecrefMany x.cpys).payload = s.path.heap.payload :=
      funext fun y => ht.payload y (by simp)
    have hsplit : x.filled ++ x.smps.take x.cpys.length ++ x.smps.drop x.cpys.length =
        x.filled ++ x.smps := by
      rw [List.append_assoc, List.take_append_drop]
    refine hinv.reader hget ht.pools (fun _ _ y _ => congrFun hpayload y) ⟨rfl, rfl⟩ ?_ ?_ ?_
      (Nat.zero_le _) ?_ ?_ ?_
    · intro y hy
      exact List.mem_append.mpr (.inr hy)
    · rw [hsplit]
      exact hok.own
    · rw [hsplit]
      exact hok.nodup
    · simp
    · have hviews := hok.copied hcopied
      simp only [List.map_append, List.map_map, List.nil_append, List.append_assoc, ← hviews]
      rfl
    · intro R' hb'
      have hb₁ : Balanced z s.path.heap ((x.cpys : Multiset SampleId) +
          (x.loopback.queue + (x.smps + x.filled) + R')) := by
        convert hb' using 1
        unfold Secondary.refs
        abel
      have hsmps : (x.smps : Multiset SampleId) = (x.smps.take x.cpys.length : Multiset SampleId) +
          (x.smps.drop x.cpys.length : Multiset SampleId) := by
        rw [Multiset.coe_add, List.take_append_drop]
      convert hb₁.decrefMany using 1
      simp only [Secondary.refs, Multiset.coe_nil, ← Multiset.coe_add]
      rw [hsmps]
      abel
  · simp at hstep

theorem Inv.reader_work (hinv : Inv z i P s) (hget : s.secondaries[j]? = some x)
    {smp : SampleId} {payload : Payload} {heap : Heap}
    (hstep : x.step s.path.heap (.work smp payload) = some (heap, x')) :
    Inv z i P { s.setHeap heap with secondaries := s.secondaries.set j x' } := by
  have hok := hinv.done j x hget
  simp only [Secondary.step] at hstep
  split at hstep
  · rename_i hcan
    cases hstep
    have hcpys := hok.cpys_nil hcan.1
    have hfilled : smp ∈ x.filled ++ x.smps := List.mem_append.mpr (.inl hcan.2)
    refine hinv.reader hget rfl ?_ ⟨rfl, rfl⟩ (fun _ hy => hy) hok.own hok.nodup hok.length ?_ rfl ?_
    · intro q hq y hy
      rw [Heap.setPayload_payload, if_neg (hinv.own_apart hget hfilled hq hy)]
    · simp [hcpys]
    · intro R' hb'
      exact hb'.setPayload (by simp [Secondary.refs, hcan.2]) payload
  · simp at hstep

theorem Inv.reader_finish (hinv : Inv z i P s) (hget : s.secondaries[j]? = some x)
    {heap : Heap} (hstep : x.step s.path.heap .finish = some (heap, x')) :
    Inv z i P { s.setHeap heap with secondaries := s.secondaries.set j x' } := by
  have hok := hinv.done j x hget
  simp only [Secondary.step] at hstep
  split at hstep
  · rename_i hdone
    cases hstep
    have hcpys := hok.cpys_nil hdone
    have ht := Touches.decrefMany s.path.heap x.filled []
    have hpayload : (s.path.heap.sampleDecrefMany x.filled).payload = s.path.heap.payload :=
      funext fun y => ht.payload y (by simp)
    refine hinv.reader hget ht.pools (fun _ _ y _ => congrFun hpayload y) ⟨rfl, rfl⟩
      (fun _ hy => hy) ?_ ?_ hok.length ?_ rfl ?_
    · intro d hd
      exact hok.own d (List.mem_append.mpr (.inr hd))
    · exact List.Nodup.of_append_right hok.nodup
    · simp [hcpys]
    · intro R' hb'
      have hb₁ : Balanced z s.path.heap ((x.filled : Multiset SampleId) +
          (x.loopback.queue + (x.smps + x.cpys) + R')) := by
        convert hb' using 1
        unfold Secondary.refs
        abel
      convert hb₁.decrefMany using 1
      simp only [Secondary.refs, Multiset.coe_nil]
      abel
  · simp at hstep

theorem Inv.readerStep (hinv : Inv z i P s) (hget : s.secondaries[j]? = some x)
    {a : ReaderAction} {heap : Heap} (hstep : x.step s.path.heap a = some (heap, x')) :
    Inv z i P { s.setHeap heap with secondaries := s.secondaries.set j x' } := by
  cases a with
  | begin => exact hinv.reader_begin hget hstep
  | pull => exact hinv.reader_pull hget hstep
  | copy => exact hinv.reader_copy hget hstep
  | release => exact hinv.reader_release hget hstep
  | work smp payload => exact hinv.reader_work hget hstep
  | finish => exact hinv.reader_finish hget hstep

/-! ## Every run -/

theorem Inv.step (hinv : Inv z i P s) {a : Action} (hstep : s.step i a = some s') :
    Inv z i P s' := by
  cases a with
  | fetch results => exact hinv.fetch hstep
  | forward => exact hinv.forward hstep
  | push => exact hinv.push hstep
  | mux ev => exact hinv.mux hstep
  | finish => exact hinv.finish hstep
  | other i' ev => exact hinv.other hstep
  | reader j a =>
    simp only [System.step] at hstep
    split at hstep
    · simp at hstep
    rename_i x hget
    obtain ⟨⟨heap, x'⟩, hreader, rfl⟩ := Option.map_eq_some_iff.mp hstep
    exact hinv.readerStep hget hreader

/-- A secondary source whose loopback node has started and that nobody has read yet. Its pool is
one of its own, with blocks as large as those of the master. -/
structure Secondary.Fresh (pools : PoolId → Pool) (P own : PoolId) (x : Secondary) : Prop where
  running : Loopback.running x.loopback
  queue : x.loopback.queue = []
  thread : x.smps = [] ∧ x.filled = [] ∧ x.cpys = [] ∧ x.copied = false
  returned : x.returned = []
  pool : x.pool ≠ P ∧ x.pool ≠ own
  capacity : (pools x.pool).capacity = (pools P).capacity

/-- The paths are prepared and started. `P` is the pool of the master source. -/
structure Start (z : SampleId → Sample) (i : Nat) (P : PoolId) (s : System σ) : Prop where
  conserved : ∃ R, Conserved z R s.path
  source : ∃ ps, s.path.sources[i]? = some ps ∧ ps.pool = P ∧ ps.secondaries = []
  apart : P ≠ s.path.pool
  phase : s.phase = .idle
  kept : s.kept = []
  secondaries : ∀ x ∈ s.secondaries, x.Fresh s.path.heap.pools P s.path.pool
  pools : (s.secondaries.map Secondary.pool).Nodup

theorem Start.inv (hstart : Start z i P s) : Inv z i P s := by
  obtain ⟨R, hc⟩ := hstart.conserved
  have hrefs : secondaryRefs s.secondaries = 0 := by
    have hall : ∀ xs : List Secondary, (∀ x ∈ xs, x.Fresh s.path.heap.pools P s.path.pool) →
        secondaryRefs xs = 0 := by
      intro xs hfresh
      induction xs with
      | nil => rfl
      | cons x xs ih =>
        have hx := hfresh x (by simp)
        obtain ⟨hsmps, hfilled, hcpys, -⟩ := hx.thread
        rw [secondaryRefs, ih fun y hy => hfresh y (by simp [hy]), Secondary.refs, hx.queue, hsmps,
          hfilled, hcpys]
        rfl
    exact hall _ hstart.secondaries
  refine ⟨⟨R, ?_⟩, hc.last, hstart.apart, ?_, ?_, ?_, ?_⟩
  · rw [hrefs, hstart.phase, Phase.refs, zero_add, zero_add]
    exact hc.balanced
  · intro ps hget
    obtain ⟨ps₀, hget₀, hpool, -⟩ := hstart.source
    cases hget₀.symm.trans hget
    exact hpool
  · rw [hstart.phase]
    trivial
  · intro j x hget
    have hx := hstart.secondaries x (List.mem_of_getElem? hget)
    obtain ⟨hsmps, hfilled, hcpys, hcopied⟩ := hx.thread
    refine ⟨hx.running, hx.pool, hx.capacity, ?_, ?_, ?_, ?_, ?_, ?_, ?_⟩
    · simp [hcpys, hx.queue]
    · simp [hcpys, hx.queue, hstart.phase, Phase.pending]
    · simp [hfilled, hsmps]
    · simp [hfilled, hsmps]
    · simp [hcpys]
    · simp [hcopied]
    · simp [System.stream, hstart.kept, hcpys, hx.queue, hx.returned, hstart.phase, Phase.pending]
  · intro j k x y hx hy hjk
    obtain ⟨hj, rfl⟩ := List.getElem?_eq_some_iff.mp hx
    obtain ⟨hk, rfl⟩ := List.getElem?_eq_some_iff.mp hy
    intro heq
    apply hjk
    have hinj := List.nodup_iff_injective_get.mp hstart.pools
    have := @hinj ⟨j, by simpa using hj⟩ ⟨k, by simpa using hk⟩ (by simpa using heq)
    simpa using this

/-- Whatever the interleaving: what a secondary has returned, then what its thread has in hand,
then what is in its queue and then what the master has still to push is all that the master has
kept, once and in order, with the contents that it had. -/
theorem fan_out {s₀ s : System σ} (hstart : Start z i P s₀) {as : List Action}
    (hrun : Runs.run (System.step i) s₀ as = some s) {x : Secondary}
    (hget : s.secondaries[j]? = some x) :
    s.kept.map view = x.returned.map view ++
      (x.cpys ++ (x.loopback.queue ++ s.phase.pending j)).map fun y => view (s.path.heap.payload y) := by
  have hinv : Inv z i P s := Runs.always (fun _ _ _ hinv hstep => hinv.step hstep) hstart.inv hrun
  exact (hinv.done j x hget).stream

/-- One secondary, with the pool 2. -/
def exampleSystem : System Unit :=
  { path := { examplePath .ok with sources := [exampleSource noHooks 0 [⟨0, .data 0, 2, 0⟩]] }
    secondaries := [⟨.internal [], 2, 1, [], [], [], false, []⟩]
    phase := .idle, kept := [] }

def exampleActions : List Action :=
  [.fetch [.read [exampleSample 7]], .forward, .reader 0 .begin, .push, .reader 0 .pull, .push,
    .mux (readingOf (exampleSample 7)), .reader 0 .copy, .finish, .reader 0 .release]

theorem exampleSystem_start : Start exampleHeap.samples 0 0 exampleSystem := by
  refine ⟨⟨0, exampleHeap_balanced, show 10 ∈ (exampleHeap.pools 1).blocks by decide⟩,
    ⟨_, rfl, rfl, rfl⟩, by decide, rfl, rfl, ?_, by decide⟩
  intro x hx
  obtain rfl := List.mem_singleton.mp hx
  exact ⟨.inl rfl, rfl, ⟨rfl, rfl, rfl, rfl⟩, rfl, by decide, rfl⟩

theorem fan_out_one :
    ∃ s x, Runs.run (System.step 0) exampleSystem exampleActions = some s ∧
      s.secondaries[0]? = some x ∧ x.cpys = [] ∧ x.loopback.queue = [] ∧ s.phase.pending 0 = [] ∧
      s.kept.length = 1 ∧ s.kept.map view = x.returned.map view := by
  have hreach : ∃ s x, Runs.run (System.step 0) exampleSystem exampleActions = some s ∧
      s.secondaries[0]? = some x ∧ x.cpys = [] ∧ x.loopback.queue = [] ∧ s.phase.pending 0 = [] ∧
      s.kept.length = 1 := ⟨_, _, rfl, rfl, rfl, rfl, rfl, rfl⟩
  obtain ⟨s, x, hrun, hget, hcpys, hqueue, hpending, hkept⟩ := hreach
  have hall := fan_out exampleSystem_start hrun hget
  refine ⟨s, x, hrun, hget, hcpys, hqueue, hpending, hkept, ?_⟩
  rw [hall, hcpys, hqueue, hpending]
  simp

end VillasNode.FanOut
