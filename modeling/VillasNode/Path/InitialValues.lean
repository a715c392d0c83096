import VillasNode.Path.Thread

/-!
# Initial values

`path_start` means to give the last sample the initial values of the signals,
but it has set the length to 0 before its loop over them. So a slot of a source
that has not delivered holds what the block held before, unless a sample with
this slot was cloned. It is said exactly when this is the initial value.
-/

namespace VillasNode

variable {σ : Type*} {z : SampleId → Sample} {h : Heap} {R : Multiset SampleId}
  {stats : Nat → Nat → Value} {ml : List MappingEntry} {capacity : Nat} {original : Bool}

/-! ## One muxed sample -/

/-- The length of the sample that is muxed of `tomux` and a clone of a sample of length `n`. -/
def muxLength (ml : List MappingEntry) (capacity n : Nat) (tomux : Payload) : Nat :=
  reachOf tomux ml (if tomux.flags &&& SampleFlags.isFirst ≠ 0 then 0 else min n capacity)

theorem muxPayload_slots (original : Bool) (lastSequence : BitVec 32) (stats : Nat → Nat → Value)
    (base stale tomux : Payload) (happly : ∀ me ∈ ml, me.applies capacity) :
    (muxPayload original lastSequence stats ml capacity (Heap.copyPayload capacity stale base)
        tomux).1.length = muxLength ml capacity base.length tomux ∧
      ∀ slot, (muxPayload original lastSequence stats ml capacity (Heap.copyPayload capacity stale base)
        tomux).1.data slot = (writtenBy stats tomux slot ml).getD
          (if slot < min base.length capacity then base.data slot else stale.data slot) := by
  obtain ⟨hlength, hdata⟩ := mappingListRemap_slots stats tomux
    (muxHeader original lastSequence (Heap.copyPayload capacity stale base) tomux) happly
  obtain ⟨hheader, hkept⟩ := muxHeader_slots original lastSequence
    (Heap.copyPayload capacity stale base) tomux
  rw [hheader] at hlength
  rw [hkept] at hdata
  unfold muxPayload
  dsimp only
  split
  · exact ⟨hlength, hdata⟩
  · exact ⟨hlength, hdata⟩

/-- The slots of `waiting` that have a signal hold its initial value. -/
def Payload.Initial (inits : List Value) (waiting : Nat → Prop) (s : Payload) : Prop :=
  ∀ slot v, waiting slot → slot < s.length → inits[slot]? = some v → s.data slot = v

/-- For a sample of length `n` that is cloned into the block `stale`: the entries write the initial
value to a slot of `waiting`, or they leave it alone and it was there before, or it is what the block
held. -/
def Primed (inits : List Value) (waiting : Nat → Prop) (stats : Nat → Nat → Value)
    (ml : List MappingEntry) (capacity n : Nat) (tomux stale : Payload) : Prop :=
  ∀ slot v, waiting slot → slot < muxLength ml capacity n tomux → inits[slot]? = some v →
    match writtenBy stats tomux slot ml with
    | some w => w = v
    | none => slot < min n capacity ∨ stale.data slot = v

theorem muxPayload_initial_iff {inits : List Value} {waiting : Nat → Prop} {base : Payload}
    (hbase : base.Initial inits waiting) (original : Bool) (lastSequence : BitVec 32)
    (stats : Nat → Nat → Value) (stale tomux : Payload) (happly : ∀ me ∈ ml, me.applies capacity) :
    (muxPayload original lastSequence stats ml capacity (Heap.copyPayload capacity stale base)
        tomux).1.Initial inits waiting ↔
      Primed inits waiting stats ml capacity base.length tomux stale := by
  obtain ⟨hlength, hdata⟩ := muxPayload_slots original lastSequence stats base stale tomux happly
  unfold Payload.Initial Primed
  rw [hlength]
  refine forall₅_congr fun slot v hwaiting hslot hv => ?_
  rw [hdata]
  cases writtenBy stats tomux slot ml with
  | some w => rfl
  | none =>
    dsimp only [Option.getD_none]
    split
    · rename_i hlt
      have := hbase slot v hwaiting (by omega) hv
      simp [this, hlt]
    · rename_i hlt
      simp [hlt]

/-! ## The mux loop -/

/-- What the mux loop makes of `tomux`, where the clones of `base` and of each other get the blocks
`stales`. -/
def muxAll (original : Bool) (stats : Nat → Nat → Value) (ml : List MappingEntry) (capacity : Nat) :
    BitVec 32 → Payload → List Payload → List Payload → List Payload
  | lastSequence, base, tomux :: rest, stale :: stales =>
    let muxed := (muxPayload original lastSequence stats ml capacity
      (Heap.copyPayload capacity stale base) tomux).1
    muxed :: muxAll original stats ml capacity (if original then lastSequence else lastSequence + 1)
      muxed rest stales
  | _, _, _, _ => []

theorem sampleClone_stale {pool : PoolId} {orig s : SampleId} {h' : Heap}
    (hc : Cloned z R pool orig h h' s) (horig : orig ∈ R) (hblock : orig ∈ (h.pools pool).blocks)
    (hb : Balanced z h R) (hclone : h.sampleClone orig = some (h', s)) :
    h'.payload s = Heap.copyPayload (h.pools pool).capacity (h.payload s) (h.payload orig) := by
  unfold Heap.sampleClone at hclone
  rw [(hb.held_in horig hblock).1] at hclone
  dsimp only at hclone
  rcases sampleAlloc_spec h pool with ⟨-, hnone⟩ | ⟨h₁, s₁, hsome, ha⟩
  · rw [hnone] at hclone
    simp at hclone
  · rw [hsome] at hclone
    cases hclone
    have hne : orig ≠ s := by
      rintro rfl
      exact hc.fresh horig
    have hpayload : h₁.payload orig = h.payload orig := by
      unfold Heap.payload
      rw [ha.samples orig hne]
    have hstale : h₁.payload s = { h.payload s with length := 0 } := by
      unfold Heap.payload
      rw [ha.sample]
      rfl
    unfold Heap.sampleCopy
    rw [Heap.setPayload_payload, if_pos rfl, ha.sample, hpayload, hstale]
    rfl

theorem muxLoop_blocks {pool : PoolId} (original : Bool) (stats : Nat → Nat → Value)
    (ml : List MappingEntry) (lastSequence : BitVec 32) (prev : SampleId) (tomux : List SampleId)
    (hb : Balanced z h R) (hprev : prev ∈ R) (hblock : prev ∈ (h.pools pool).blocks)
    (htomux : ∀ s ∈ tomux, s ∈ R)
    (hok : (muxLoop original stats ml h lastSequence prev tomux).2.2.2 = true) :
    (muxLoop original stats ml h lastSequence prev tomux).2.2.1.map
        (muxLoop original stats ml h lastSequence prev tomux).1.payload =
      muxAll original stats ml (h.pools pool).capacity lastSequence (h.payload prev)
        (tomux.map h.payload) ((h.free pool).map h.payload) := by
  induction tomux generalizing h R lastSequence prev with
  | nil => rfl
  | cons t rest ih =>
    unfold muxLoop at hok ⊢
    rcases sampleClone_spec hb hprev hblock with ⟨-, hnone⟩ | ⟨h₁, m, hsome, hc⟩
    · rw [hnone] at hok
      simp at hok
    rw [hsome] at hok ⊢
    dsimp only at hok ⊢
    have hblock₁ : m ∈ (h₁.pools pool).blocks := by
      rw [hc.touches.pools]
      exact hc.block
    have hcap := (hc.balanced.held_in (Multiset.mem_cons_self m R) hblock₁).2
    rw [hcap, hc.touches.pools] at hok ⊢
    have ht : h₁.payload t = h.payload t := by
      apply hc.touches.payload
      rw [List.mem_singleton]
      rintro rfl
      exact hc.fresh (htomux t List.mem_cons_self)
    rw [sampleClone_stale hc hprev hblock hb hsome, ht] at hok ⊢
    rw [hc.free, List.map_cons, List.map_cons, muxAll]
    generalize hx : muxPayload original lastSequence stats ml (h.pools pool).capacity
      (Heap.copyPayload (h.pools pool).capacity (h.payload m) (h.payload prev)) (h.payload t) = x at *
    split at hok
    · rename_i hyes
      rw [if_pos hyes]
      have hb₂ := hc.balanced.setPayload (Multiset.mem_cons_self m R) x.1
      have htomux₂ : ∀ s ∈ rest, s ∈ m ::ₘ R :=
        fun s hs => Multiset.mem_cons_of_mem (htomux s (List.mem_cons_of_mem t hs))
      have hm := muxLoop_spec original stats ml (if original then lastSequence else lastSequence + 1) m rest
        hb₂ (Multiset.mem_cons_self m R) hblock₁ htomux₂
      have hrest := ih _ m hb₂ (Multiset.mem_cons_self m R) hblock₁ htomux₂ hok
      have hmine := hm.touches.payload m fun hmem => hm.fresh m hmem (Multiset.mem_cons_self m R)
      -- The other samples and blocks are as they were.
      have hother : ∀ s ≠ m, (h₁.setPayload m x.1).payload s = h.payload s := by
        intro s hs
        rw [Heap.setPayload_payload, if_neg hs]
        exact hc.touches.payload s (by simpa using hs)
      have hmap : rest.map (h₁.setPayload m x.1).payload = rest.map h.payload := by
        apply List.map_congr_left
        intro s hs
        apply hother
        rintro rfl
        exact hc.fresh (htomux s (List.mem_cons_of_mem t hs))
      have hfree : (h₁.free pool).map (h₁.setPayload m x.1).payload = (h₁.free pool).map h.payload := by
        apply List.map_congr_left
        intro s hs
        exact hother s (hc.balanced.ne_of_free (Multiset.mem_cons_self m R) hs)
      rw [Heap.setPayload_payload, if_pos rfl] at hmine
      rw [hmap, Heap.setPayload_free, hfree, Heap.setPayload_pools, hc.touches.pools,
        Heap.setPayload_payload, if_pos rfl] at hrest
      dsimp only
      rw [List.map_cons, hmine, hrest]
    · simp at hok

/-- Every sample that is made of `tomux` and the blocks `stales` is primed. -/
def PrimedAll (inits : List Value) (waiting : Nat → Prop) (stats : Nat → Nat → Value)
    (ml : List MappingEntry) (capacity : Nat) : Nat → List Payload → List Payload → Prop
  | n, tomux :: rest, stale :: stales =>
    Primed inits waiting stats ml capacity n tomux stale ∧
      PrimedAll inits waiting stats ml capacity (muxLength ml capacity n tomux) rest stales
  | _, _, _ => True

theorem muxAll_initial_iff {inits : List Value} {waiting : Nat → Prop} (original : Bool)
    (stats : Nat → Nat → Value) (happly : ∀ me ∈ ml, me.applies capacity) (lastSequence : BitVec 32)
    {base : Payload} (hbase : base.Initial inits waiting) (tomux stales : List Payload) :
    (∀ m ∈ muxAll original stats ml capacity lastSequence base tomux stales, m.Initial inits waiting) ↔
      PrimedAll inits waiting stats ml capacity base.length tomux stales := by
  induction tomux generalizing base lastSequence stales with
  | nil => simp [muxAll, PrimedAll]
  | cons t rest ih =>
    cases stales with
    | nil => simp [muxAll, PrimedAll]
    | cons stale stales =>
      rw [muxAll, PrimedAll, List.forall_mem_cons,
        muxPayload_initial_iff hbase original lastSequence stats stale t happly]
      refine and_congr_right fun hprimed => ?_
      rw [ih _ ((muxPayload_initial_iff hbase original lastSequence stats stale t happly).mpr hprimed),
        (muxPayload_slots original lastSequence stats base stale t happly).1]

/-! ## Deliveries -/

variable {entries : Nat → List MappingEntry} {inits : List Value} {p p' : Path σ}

/-- The slot belongs to a source that is not among those that have delivered. -/
def Waiting (entries : Nat → List MappingEntry) (delivered : List Nat) (slot : Nat) : Prop :=
  ∃ i, i ∉ delivered ∧ ∃ me ∈ entries i, me.slots slot

theorem Payload.Initial.mono {waiting waiting' : Nat → Prop} {s : Payload} (hs : s.Initial inits waiting)
    (hle : ∀ slot, waiting' slot → waiting slot) : s.Initial inits waiting' :=
  fun slot v hwaiting => hs slot v (hle slot hwaiting)

theorem Waiting.mono {delivered delivered' : List Nat} {slot : Nat} (hw : Waiting entries delivered' slot)
    (hsub : ∀ i ∈ delivered, i ∈ delivered') : Waiting entries delivered slot := by
  obtain ⟨i, hi, hme⟩ := hw
  exact ⟨i, fun hmem => hi (hsub i hmem), hme⟩

/-- Every muxed sample has initial values in the slots of the sources that had not delivered. -/
def MuxedInitial (entries : Nat → List MappingEntry) (inits : List Value) (D : List Delivery) : Prop :=
  ∀ pre x post, D = pre ++ x :: post →
    x.muxed.Initial inits (Waiting entries ((pre ++ [x]).map Delivery.source))

theorem muxedInitial_append {D E : List Delivery} {i : Nat} (hE : ∀ x ∈ E, x.source = i) :
    MuxedInitial entries inits (D ++ E) ↔ MuxedInitial entries inits D ∧
      ∀ x ∈ E, x.muxed.Initial inits (Waiting entries (i :: D.map Delivery.source)) := by
  constructor
  · intro hall
    refine ⟨fun pre x post hD => hall pre x (post ++ E) (by rw [hD]; simp), fun x hx => ?_⟩
    obtain ⟨pre, post, rfl⟩ := List.append_of_mem hx
    refine (hall (D ++ pre) x post (by simp)).mono fun slot hw => hw.mono fun j hj => ?_
    rw [List.map_append, List.map_append, List.append_assoc, List.mem_append] at hj
    rw [List.mem_cons]
    rcases hj with hj | hj
    · exact .inr hj
    · left
      rw [← List.map_append, List.mem_map] at hj
      obtain ⟨y, hy, rfl⟩ := hj
      refine hE y ?_
      rw [List.mem_append, List.mem_singleton] at hy
      rcases hy with hy | rfl
      · exact List.mem_append_left _ hy
      · exact hx
  · rintro ⟨hD, hE'⟩ pre x post heq
    rcases List.append_eq_append_iff.mp heq with ⟨mid, rfl, hmid⟩ | ⟨mid, rfl, hmid⟩
    · have hx : x ∈ E := by
        rw [hmid]
        simp
      refine (hE' x hx).mono fun slot hw => hw.mono fun j hj => ?_
      rw [List.mem_cons] at hj
      rcases hj with rfl | hj
      · rw [← hE x hx]
        simp
      · simp only [List.map_append, List.mem_append]
        exact .inl (.inl hj)
    · cases mid with
      | nil =>
        have hx : x ∈ E := by
          rw [List.nil_append] at hmid
          rw [← hmid]
          exact List.mem_cons_self
        refine (hE' x hx).mono fun slot hw => hw.mono fun j hj => ?_
        rw [List.mem_cons] at hj
        rcases hj with rfl | hj
        · rw [← hE x hx]
          simp
        · rw [List.append_nil] at hj
          rw [List.map_append, List.mem_append]
          exact .inl hj
      | cons y mid =>
        cases hmid
        exact hD pre x mid rfl

/-! ## Reads -/

/-- The values of `a` are those of `b`. -/
def Payload.Within (a b : Payload) : Prop :=
  a.length ≤ b.length ∧ ∀ slot < a.length, a.data slot = b.data slot

theorem Payload.Initial.within {waiting : Nat → Prop} {a b : Payload} (hb : b.Initial inits waiting)
    (hab : a.Within b) : a.Initial inits waiting := by
  intro slot v hwaiting hslot hv
  rw [hab.2 slot hslot]
  exact hb slot v hwaiting (Nat.lt_of_lt_of_le hslot hab.1) hv

/-- The last sample is the one that was muxed last, or it has no values. -/
def LastMuxed (D : List Delivery) (last : Payload) : Prop :=
  D = [] ∧ last.length = 0 ∨ ∃ pre x, D = pre ++ [x] ∧ last.Within x.muxed

theorem MuxedInitial.last {D : List Delivery} {last : Payload} (hD : MuxedInitial entries inits D)
    (hlast : LastMuxed D last) : last.Initial inits (Waiting entries (D.map Delivery.source)) := by
  rcases hlast with ⟨-, hzero⟩ | ⟨pre, x, rfl, hwithin⟩
  · intro slot v _ hslot
    omega
  · exact (hD pre x [] rfl).within hwithin

structure Running (z : SampleId → Sample) (p : Path σ) : Prop where
  conserved : ∃ R, Conserved z R p
  spared : p.Spared
  last : LastMuxed p.deliveries (p.heap.payload p.lastSample)

/-- The blocks that the samples of a read are muxed into hold initial values where they matter. -/
def Path.Primes (inits : List Value) (p : Path σ) : PathAction → Prop
  | .read i ev => ∀ p₁ ps read, p.arrive i ev = some (p₁, ps, read) →
    (p₁.tomux read).length ≤ (p₁.heap.free p₁.pool).length →
    (∀ me ∈ ps.mappings, me.applies (p₁.heap.pools p₁.pool).capacity) →
      PrimedAll inits (Waiting p.entries (i :: p.deliveries.map Delivery.source)) ev.stats ps.mappings
        (p₁.heap.pools p₁.pool).capacity (p₁.heap.payload p₁.lastSample).length
        ((p₁.tomux read).map p₁.heap.payload) ((p₁.heap.free p₁.pool).map p₁.heap.payload)
  | .timeout => True
  | .write _ _ => True

theorem muxAndFinish_trace {i : Nat} {ps : PathSource σ} {read : List SampleId} {ev : Reading} {ret : Int}
    (hread : read ≠ []) (hlast : p.lastSample ∈ (p.heap.pools p.pool).blocks)
    (hb : Balanced z p.heap ((read : Multiset SampleId) + (p.ownRefs + R)))
    (hmux : p.muxAndFinish i ps read ev = some (p', ret)) :
    (¬ ((p.tomux read).length ≤ (p.heap.free p.pool).length ∧
        ∀ me ∈ ps.mappings, me.applies (p.heap.pools p.pool).capacity) ∧
      p'.trace = p.trace) ∨
    ((p.tomux read).length ≤ (p.heap.free p.pool).length ∧
      (∀ me ∈ ps.mappings, me.applies (p.heap.pools p.pool).capacity) ∧
      ∃ tail, p'.trace = p.trace ++ .delivered i
        ((p.tomux read).map p.heap.payload) ev.stats (muxAll p.originalSequenceNo ev.stats ps.mappings
          (p.heap.pools p.pool).capacity p.lastSequence (p.heap.payload p.lastSample)
          ((p.tomux read).map p.heap.payload) ((p.heap.free p.pool).map p.heap.payload)) :: tail) := by
  have hown : p.lastSample ∈ (read : Multiset SampleId) + (p.ownRefs + R) := by simp [mem_ownRefs p]
  have htomux : ∀ s ∈ p.tomux read, s ∈ (read : Multiset SampleId) + (p.ownRefs + R) :=
    fun s hs => by simp [tomux_subset p read s hs]
  obtain ⟨-, -, -, hm⟩ := mux_spec p i ps read ev hlast hown (fun s hs => by simp [hs]) hb
  have hok := hm.ok_iff.trans (or_iff_right (tomux_ne_nil p hread))
  have hblocks := muxLoop_blocks p.originalSequenceNo ev.stats ps.mappings p.lastSequence p.lastSample
    (p.tomux read) hb hown hlast htomux
  have htrace : (p.mux i ps read ev).1.trace = if (p.mux i ps read ev).2.2 then
      p.trace ++ [.delivered i ((p.tomux read).map p.heap.payload) ev.stats
        ((p.mux i ps read ev).2.1.map (p.mux i ps read ev).1.heap.payload)] else p.trace := rfl
  have hblocks : (p.mux i ps read ev).2.2 = true → (p.mux i ps read ev).2.1.map
      (p.mux i ps read ev).1.heap.payload = _ := hblocks
  unfold Path.muxAndFinish at hmux
  generalize p.mux i ps read ev = r at *
  obtain ⟨p₁, muxed, ok⟩ := r
  dsimp only at *
  cases ok with
  | false =>
    rw [if_neg Bool.false_ne_true] at htrace hmux
    cases hmux
    exact .inl ⟨fun hboth => Bool.false_ne_true (hok.mpr hboth), htrace⟩
  | true =>
    rw [if_pos rfl] at htrace hmux
    obtain ⟨tail, htail, -⟩ := finish_trace hmux
    refine .inr ⟨(hok.mp rfl).1, (hok.mp rfl).2, tail, ?_⟩
    rw [htail, htrace, hblocks rfl, List.append_assoc]
    rfl

theorem delivered_sources {i : Nat} {smps muxed : List Payload} :
    ∀ x ∈ (PathEvent.delivered i smps stats muxed).deliveries, x.source = i := by
  intro x hx
  obtain ⟨y, -, rfl⟩ := List.mem_map.mp hx
  rfl

theorem delivered_muxed (i : Nat) (stats : Nat → Nat → Value) {smps muxed : List Payload}
    (hlen : muxed.length ≤ smps.length) :
    (PathEvent.delivered i smps stats muxed).deliveries.map Delivery.muxed = muxed := by
  unfold PathEvent.deliveries
  rw [List.map_map]
  exact List.map_snd_zip hlen

theorem muxAll_length_le (original : Bool) (stats : Nat → Nat → Value) (ml : List MappingEntry)
    (capacity : Nat) (lastSequence : BitVec 32) (base : Payload) (tomux stales : List Payload) :
    (muxAll original stats ml capacity lastSequence base tomux stales).length ≤ tomux.length := by
  induction tomux generalizing lastSequence base stales with
  | nil => simp [muxAll]
  | cons t rest ih =>
    cases stales with
    | nil => simp [muxAll]
    | cons stale stales =>
      rw [muxAll, List.length_cons, List.length_cons]
      exact Nat.succ_le_succ (ih ..)

theorem copyPayload_within (capacity : Nat) (dst src : Payload) :
    (Heap.copyPayload capacity dst src).Within src := by
  unfold Heap.copyPayload Payload.Within
  dsimp only
  exact ⟨Nat.min_le_left .., fun slot hslot => if_pos hslot⟩

theorem primes_read_iff {i : Nat} {ev : Reading} {p₁ : Path σ} {ps : PathSource σ} {read : List SampleId}
    (harrive : p.arrive i ev = some (p₁, ps, read)) :
    p.Primes inits (.read i ev) ↔ ((p₁.tomux read).length ≤ (p₁.heap.free p₁.pool).length →
      (∀ me ∈ ps.mappings, me.applies (p₁.heap.pools p₁.pool).capacity) →
      PrimedAll inits (Waiting p.entries (i :: p.deliveries.map Delivery.source)) ev.stats ps.mappings
        (p₁.heap.pools p₁.pool).capacity (p₁.heap.payload p₁.lastSample).length
        ((p₁.tomux read).map p₁.heap.payload) ((p₁.heap.free p₁.pool).map p₁.heap.payload)) := by
  unfold Path.Primes
  constructor
  · exact fun hall => hall p₁ ps read harrive
  · intro hone p₂ ps₂ read₂ harrive₂
    cases harrive.symm.trans harrive₂
    exact hone

theorem lastMuxed_append (D : List Delivery) {E : List Delivery} {last : Payload} (dst : Payload)
    (hlast : (E.map Delivery.muxed).getLast? = some last) :
    LastMuxed (D ++ E) (Heap.copyPayload capacity dst last) := by
  rw [List.getLast?_map, Option.map_eq_some_iff] at hlast
  obtain ⟨x, hx, rfl⟩ := hlast
  obtain ⟨pre, rfl⟩ := List.getLast?_eq_some_iff.mp hx
  exact .inr ⟨D ++ pre, x, (List.append_assoc ..).symm, copyPayload_within ..⟩

theorem read_running_iff {i : Nat} {ev : Reading} {ret : Int} (hr : Running z p)
    (hread : p.pathSourceRead i ev = some (p', ret)) :
    Running z p' ∧ p'.entries = p.entries ∧ (MuxedInitial p.entries inits p'.deliveries ↔
      MuxedInitial p.entries inits p.deliveries ∧ p.Primes inits (.read i ev)) := by
  obtain ⟨⟨R, hc⟩, hspared, hlast⟩ := hr
  obtain ⟨hsame, ⟨ps, ps', hget, hset, hmap, tomux, hdel⟩, -, lost, hc', -⟩ := pathSourceRead_spec hc hread
  have hentries := readStep_entries hget hset hmap
  have hspared' := pathSourceRead_spares hc hspared hread
  -- A read that delivers nothing.
  have hnothing : p'.trace = p.trace → Running z p' ∧ p'.deliveries = p.deliveries := by
    intro htrace
    have hD : p'.deliveries = p.deliveries := by
      unfold Path.deliveries
      rw [htrace]
    refine ⟨⟨⟨_, hc'⟩, hspared', ?_⟩, hD⟩
    rcases hdel with ⟨-, hpayload⟩ | ⟨muxed, last, tail, -, -, htrace', -, -⟩
    · rw [hD, hsame.lastSample, hpayload]
      exact hlast
    · rw [htrace] at htrace'
      simp at htrace'
  rcases pathSourceRead_arrive hread with ⟨hnone, htrace, -⟩ | ⟨p₁, ps₁, read, harrive, hmux⟩
  · obtain ⟨hr', hD⟩ := hnothing htrace
    refine ⟨hr', hentries, ?_⟩
    rw [hD, iff_self_and]
    intro _ p₁ ps₁ read harrive
    rw [hnone] at harrive
    simp at harrive
  · have ha := arrive_spec hc harrive
    obtain ⟨R₁, hb⟩ := ha.balanced
    have hlast₁ : p₁.lastSample ∈ (p₁.heap.pools p₁.pool).blocks := by
      rw [ha.config.lastSample, ha.config.pools, ha.config.pool]
      exact hc.last
    have hpayload₁ : p₁.heap.payload p₁.lastSample = p.heap.payload p.lastSample := by
      rw [ha.config.lastSample]
      exact ha.last
    have hcases := muxAndFinish_trace ha.nonempty hlast₁ hb hmux
    rw [ha.trace] at hcases
    rcases hcases with ⟨hguard, htrace⟩ | ⟨hroom, happly, tail, htrace⟩
    · obtain ⟨hr', hD⟩ := hnothing htrace
      refine ⟨hr', hentries, ?_⟩
      rw [hD, primes_read_iff harrive, iff_self_and]
      intro _ hroom happly
      exact absurd ⟨hroom, happly⟩ hguard
    · rcases hdel with ⟨htrace', -⟩ | ⟨muxed, last, tail', -, hgetLast, htrace', htail', hpayload⟩
      · rw [htrace'] at htrace
        simp at htrace
      rw [htrace'] at htrace
      obtain ⟨hevent, rfl⟩ := List.cons.inj (List.append_cancel_left htrace)
      obtain ⟨-, rfl, -, hmuxed⟩ := PathEvent.delivered.inj hevent
      have hD := deliveries_append htrace' htail'
      have hlen : muxed.length ≤ ((p₁.tomux read).map p₁.heap.payload).length := by
        rw [hmuxed]
        exact muxAll_length_le ..
      have hmap := delivered_muxed i ev.stats hlen
      generalize hE : (PathEvent.delivered i ((p₁.tomux read).map p₁.heap.payload) ev.stats
        muxed).deliveries = E at *
      have hsource : ∀ x ∈ E, x.source = i := hE ▸ delivered_sources
      refine ⟨⟨⟨_, hc'⟩, hspared', ?_⟩, hentries, ?_⟩
      · rw [← hmap] at hgetLast
        rw [hD, hsame.lastSample, hpayload]
        exact lastMuxed_append _ _ hgetLast
      · rw [hD, muxedInitial_append hsource, primes_read_iff harrive]
        refine and_congr_right fun hinitial => ?_
        have hbase : (p₁.heap.payload p₁.lastSample).Initial inits
            (Waiting p.entries (i :: p.deliveries.map Delivery.source)) := by
          rw [hpayload₁]
          exact (hinitial.last hlast).mono fun slot hw => hw.mono fun j hj => List.mem_cons_of_mem i hj
        have hiff := muxAll_initial_iff p₁.originalSequenceNo ev.stats happly p₁.lastSequence hbase
          ((p₁.tomux read).map p₁.heap.payload) ((p₁.heap.free p₁.pool).map p₁.heap.payload)
        rw [← hmuxed, ← hmap, List.forall_mem_map] at hiff
        rw [hiff]
        exact ⟨fun hprimed _ _ => hprimed, fun hall => hall hroom happly⟩

/-! ## Runs -/

theorem LastMuxed.congr {D : List Delivery} {a b : Payload} (hb : LastMuxed D b) (hab : a.Agrees b) :
    LastMuxed D a := by
  rcases hb with ⟨hD, hzero⟩ | ⟨pre, x, hD, hle, hvalues⟩
  · exact .inl ⟨hD, hab.1.trans hzero⟩
  · refine .inr ⟨pre, x, hD, hab.1 ▸ hle, fun slot hslot => ?_⟩
    rw [hab.1] at hslot
    rw [hab.2 slot hslot]
    exact hvalues slot hslot

theorem Undisturbed.running (hu : Undisturbed z p p') (hr : Running z p) : Running z p' := by
  refine ⟨hu.conserved, hu.spared, ?_⟩
  rw [hu.deliveries, hu.config.lastSample]
  exact hr.last.congr hu.last

theorem act_running_iff (inits : List Value) {a : PathAction} (hr : Running z p) (hact : p.act a = some p') :
    Running z p' ∧ p'.entries = p.entries ∧ (MuxedInitial p.entries inits p'.deliveries ↔
      MuxedInitial p.entries inits p.deliveries ∧ p.Primes inits a) := by
  have hother : Undisturbed z p p' → p.Primes inits a → Running z p' ∧ p'.entries = p.entries ∧
      (MuxedInitial p.entries inits p'.deliveries ↔
        MuxedInitial p.entries inits p.deliveries ∧ p.Primes inits a) := by
    intro hu hprimes
    refine ⟨hu.running hr, ?_, ?_⟩
    · unfold Path.entries
      rw [hu.sources]
    · rw [hu.deliveries]
      exact (and_iff_left hprimes).symm
  obtain ⟨R, hc⟩ := hr.conserved
  cases a with
  | read i ev =>
    obtain ⟨⟨p'', ret⟩, hread, rfl⟩ := Option.map_eq_some_iff.mp hact
    exact read_running_iff hr hread
  | timeout =>
    cases hact
    exact hother (timeout_undisturbed hc hr.spared) trivial
  | write i rs => exact hother (writeTo_undisturbed hc hr.spared hact) trivial

/-- All muxed samples, and the last sample, which the timeout enqueues again, have the initial values
of the sources that have not delivered since `path_start`. -/
def Path.Initialised (inits : List Value) (p : Path σ) : Prop :=
  MuxedInitial p.entries inits p.deliveries ∧
    (p.heap.payload p.lastSample).Initial inits (Waiting p.entries (p.deliveries.map Delivery.source))

/-- In every run of the thread of a path from `path_start` on, there are initial values in the slots
of sources that have not delivered, if and only if this is so by the contents of the blocks. -/
theorem initial_values_iff {p p₀ p' : Path σ} {state : σ} {signals : Nat} {inits : List Value}
    {as : List PathAction} (hb : Balanced z p.heap (p.stoppedRefs + R))
    (hstart : p.pathStart state signals inits = some p₀) (hrun : Runs.run Path.act p₀ as = some p') :
    p'.Initialised inits ↔ Runs.Along Path.act (Path.Primes inits) p₀ as := by
  obtain ⟨hfresh, hspared, -⟩ := pathStart_fresh hb hstart
  have hnone : p₀.deliveries = [] := by
    unfold Path.deliveries
    rw [hfresh.trace]
    rfl
  have hr : Running z p₀ := ⟨⟨R, hfresh.conserved⟩, hspared, .inl ⟨hnone, hfresh.length⟩⟩
  have hinit : MuxedInitial p₀.entries inits p₀.deliveries := by
    intro pre x post hD
    rw [hnone] at hD
    simp at hD
  have hinv : ∀ (p : Path σ) (a : PathAction) (p' : Path σ), Running z p ∧ p.entries = p₀.entries →
      p.act a = some p' → Running z p' ∧ p'.entries = p₀.entries := by
    rintro p a p' ⟨hr, hentries⟩ hact
    obtain ⟨hr', hentries', -⟩ := act_running_iff inits hr hact
    exact ⟨hr', hentries'.trans hentries⟩
  have hiff : ∀ (p : Path σ) (a : PathAction) (p' : Path σ), Running z p ∧ p.entries = p₀.entries →
      p.act a = some p' → (MuxedInitial p₀.entries inits p'.deliveries ↔
        MuxedInitial p₀.entries inits p.deliveries ∧ p.Primes inits a) := by
    rintro p a p' ⟨hr, hentries⟩ hact
    rw [← hentries]
    exact (act_running_iff inits hr hact).2.2
  obtain ⟨hr', hentries'⟩ := Runs.always hinv ⟨hr, rfl⟩ hrun
  have hlast := Runs.along_iff_last hinv hiff ⟨hr, rfl⟩ hrun
  rw [and_iff_right hinit] at hlast
  rw [← hlast]
  unfold Path.Initialised
  rw [hentries']
  exact and_iff_left_of_imp fun hmuxed => hmuxed.last hr'.last

/-! ## Two sources with a value each -/

/-- `in = ["a.data[0]", "b.data[0]"]`. The path is stopped, and somebody else holds the block 10. -/
def twoValues : Path Unit :=
  { examplePath .ok with
    mask := {0, 1}
    sources := [exampleSource noHooks 0 [⟨0, .data 0, 1, 0⟩], exampleSource noHooks 2 [⟨1, .data 0, 1, 1⟩]] }

theorem twoValues_balanced :
    Balanced exampleHeap.samples twoValues.heap (twoValues.stoppedRefs + {10}) :=
  exampleHeap_balanced

theorem mem_twoValues_entries {i : Nat} {me : MappingEntry} (hme : me ∈ twoValues.entries i) :
    i = 0 ∧ me = ⟨0, .data 0, 1, 0⟩ ∨ i = 1 ∧ me = ⟨1, .data 0, 1, 1⟩ := by
  rcases i with _ | _ | i
  · exact .inl ⟨rfl, List.mem_singleton.mp hme⟩
  · exact .inr ⟨rfl, List.mem_singleton.mp hme⟩
  · cases hme

def valueRead (i : Nat) : PathAction := .read i (readingOf (exampleSample 7))

/-- The second source delivers first, and the block holds 0 in the slot of the other. -/
theorem initial_values_by_chance :
    ∃ p₀ p, twoValues.pathStart () 0 [0, 6] = some p₀ ∧
      Runs.run Path.act p₀ [valueRead 1, .write 0 [.sent 1], .timeout] = some p ∧
      p.Initialised [0, 6] := by
  obtain ⟨p₀, hstart⟩ : ∃ p₀, twoValues.pathStart () 0 [0, 6] = some p₀ := ⟨_, rfl⟩
  obtain ⟨p, hrun⟩ : ∃ p, Runs.run Path.act p₀ [valueRead 1, .write 0 [.sent 1], .timeout] = some p := by
    cases hstart
    exact ⟨_, rfl⟩
  refine ⟨p₀, p, hstart, hrun, (initial_values_iff twoValues_balanced hstart hrun).mpr ?_⟩
  cases hstart
  refine ⟨?_, fun p₁ _ => ⟨trivial, fun p₂ _ => ⟨trivial, fun p₃ _ => trivial⟩⟩⟩
  intro p₁ ps read harrive _ _
  cases harrive
  refine ⟨fun slot v hw _ hv => ?_, trivial⟩
  obtain ⟨i, hi, me, hme, hslots⟩ := hw
  rcases mem_twoValues_entries hme with ⟨rfl, rfl⟩ | ⟨rfl, -⟩
  · obtain rfl : slot = 0 := Nat.lt_one_iff.mp hslots.2
    cases hv
    exact .inr rfl
  · exact absurd List.mem_cons_self hi

/-- The second source delivers first, and the slot of the other holds what the block held. -/
theorem initial_value_leftover :
    ∃ p₀ p x, twoValues.pathStart () 0 [5, 6] = some p₀ ∧
      Balanced exampleHeap.samples twoValues.heap (twoValues.stoppedRefs + {10}) ∧
      Runs.run Path.act p₀ [valueRead 1] = some p ∧ p.deliveries = [x] ∧ x.muxed.length = 2 ∧
      x.muxed.data 0 = (exampleHeap.payload 12).data 0 ∧ ¬ p.Initialised [5, 6] := by
  refine ⟨_, _, _, rfl, twoValues_balanced, rfl, rfl, rfl, rfl, fun hall => ?_⟩
  have hslot := hall.1 [] _ [] rfl 0 5
    ⟨0, by decide, _, List.mem_singleton.mpr rfl, Nat.le_refl 0, Nat.one_pos⟩ (by decide) rfl
  exact absurd hslot (by decide)

end VillasNode
