import VillasNode.Mapping.Slots
import VillasNode.Path.Ledger

/-!
# Clones and muxed samples

Muxed samples are clones, so they are fresh blocks of the pool of the path.
-/

namespace VillasNode

variable {σ : Type*} {z : SampleId → Sample} {h h' : Heap} {R : Multiset SampleId}
  {pool : PoolId} {orig : SampleId}

theorem Balanced.held_in (hb : Balanced z h R) {s : SampleId} (hs : s ∈ R)
    (hblock : s ∈ (h.pools pool).blocks) :
    (h.samples s).pool = some pool ∧ (h.samples s).capacity = (h.pools pool).capacity := by
  obtain ⟨q, hq⟩ := hb.held s hs
  obtain rfl : q = pool := hb.apart q pool s hq.block hblock
  exact ⟨hq.pool, hq.capacity⟩

/-! ## `sample_clone` -/

structure Cloned (z : SampleId → Sample) (R : Multiset SampleId) (pool : PoolId) (orig : SampleId)
    (h h' : Heap) (s : SampleId) : Prop where
  balanced : Balanced z h' (s ::ₘ R)
  fresh : s ∉ R
  block : s ∈ (h.pools pool).blocks
  touches : Touches [s] h h'
  free : h.free pool = s :: h'.free pool
  free_of_ne : ∀ q ≠ pool, h'.free q = h.free q
  payload : ∃ stale, h'.payload s =
    Heap.copyPayload (h.pools pool).capacity stale (h.payload orig)

theorem sampleClone_spec (hb : Balanced z h R) (horig : orig ∈ R)
    (hblock : orig ∈ (h.pools pool).blocks) :
    (h.free pool = [] ∧ h.sampleClone orig = none) ∨
      ∃ h' s, h.sampleClone orig = some (h', s) ∧ Cloned z R pool orig h h' s := by
  unfold Heap.sampleClone
  rw [(hb.held_in horig hblock).1]
  dsimp only
  rcases sampleAlloc_spec h pool with ⟨hnil, hnone⟩ | ⟨h₁, s, hsome, ha⟩
  · rw [hnone]
    exact .inl ⟨hnil, rfl⟩
  · rw [hsome]
    obtain ⟨hb₁, hfresh⟩ := hb.alloc ha
    have hne : orig ≠ s := by
      rintro rfl
      exact hfresh horig
    have hpayload : ∀ s' ≠ s, h₁.payload s' = h.payload s' := by
      intro s' hs'
      unfold Heap.payload
      rw [ha.samples s' hs']
    refine .inr ⟨_, s, rfl, ?_, hfresh, ?_, ?_, ha.free, ha.free_of_ne, ?_⟩
    · exact hb₁.setPayload (Multiset.mem_cons_self s R) _
    · apply hb.area
      rw [ha.free]
      exact List.mem_cons_self
    · refine Touches.trans ⟨ha.pools, fun s' hs' => hpayload s' ?_⟩ (.setPayload List.mem_cons_self _)
      simpa using hs'
    · refine ⟨h₁.payload s, ?_⟩
      unfold Heap.sampleCopy
      rw [Heap.setPayload_payload, if_pos rfl, hpayload orig hne, ha.sample]

/-! ## The mux loop -/

theorem muxPayload_ok (original : Bool) (lastSequence : BitVec 32) (stats : Nat → Nat → Value)
    (ml : List MappingEntry) (capacity : Nat) (muxed tomux : Payload) :
    (muxPayload original lastSequence stats ml capacity muxed tomux).2 = true ↔
      ∀ me ∈ ml, me.applies capacity := by
  unfold muxPayload
  exact mappingListRemap_ok ..

/-- Contents of muxed samples: each starts as a copy of the one before, in a block with stale
values. -/
inductive MuxChain (original : Bool) (stats : Nat → Nat → Value) (ml : List MappingEntry)
    (capacity : Nat) : Payload → List Payload → List Payload → Prop
  | nil (base : Payload) : MuxChain original stats ml capacity base [] []
  | cons (lastSequence : BitVec 32) (stale : Payload) {base tomux muxed : Payload}
      {tomuxs muxeds : List Payload} (happly : ∀ me ∈ ml, me.applies capacity)
      (hmuxed : muxed = (muxPayload original lastSequence stats ml capacity
        (Heap.copyPayload capacity stale base) tomux).1)
      (hrest : MuxChain original stats ml capacity muxed tomuxs muxeds) :
      MuxChain original stats ml capacity base (tomux :: tomuxs) (muxed :: muxeds)

/-- What the mux loop does, from the clone of `prev` on. -/
structure Muxed (z : SampleId → Sample) (R : Multiset SampleId) (pool : PoolId)
    (original : Bool) (stats : Nat → Nat → Value) (ml : List MappingEntry) (h : Heap)
    (prev : SampleId) (tomux : List SampleId) (h' : Heap) (muxed : List SampleId) (ok : Bool) :
    Prop where
  balanced : Balanced z h' ((muxed : Multiset SampleId) + R)
  fresh : ∀ m ∈ muxed, m ∉ R
  block : ∀ m ∈ muxed, m ∈ (h.pools pool).blocks
  touches : Touches muxed h h'
  ok_iff : ok = true ↔ tomux = [] ∨
    tomux.length ≤ (h.free pool).length ∧ ∀ me ∈ ml, me.applies (h.pools pool).capacity
  length : ok = true → muxed.length = tomux.length
  chain : ok = true → MuxChain original stats ml (h.pools pool).capacity (h.payload prev)
    (tomux.map h.payload) (muxed.map h'.payload)

theorem Muxed.cons {original : Bool} {stats : Nat → Nat → Value} {ml : List MappingEntry}
    {lastSequence : BitVec 32} {h₁ h' : Heap} {prev m t : SampleId} {rest muxed : List SampleId}
    {ok : Bool} {x : Payload} (hc : Cloned z R pool prev h h₁ m) (htomux : ∀ s ∈ t :: rest, s ∈ R)
    (happly : ∀ me ∈ ml, me.applies (h.pools pool).capacity)
    (hx : x = (muxPayload original lastSequence stats ml (h.pools pool).capacity (h₁.payload m)
      (h₁.payload t)).1)
    (hrest : Muxed z (m ::ₘ R) pool original stats ml (h₁.setPayload m x) m rest h' muxed ok) :
    Muxed z R pool original stats ml h prev (t :: rest) h' (m :: muxed) ok := by
  have htouch : Touches [m] h (h₁.setPayload m x) :=
    hc.touches.trans (.setPayload List.mem_cons_self _)
  have hpools : (h₁.setPayload m x).pools = h.pools := htouch.pools
  have hother : ∀ s ∈ t :: rest, s ∉ [m] := by
    intro s hs hsm
    rw [List.mem_singleton] at hsm
    exact hc.fresh (hsm ▸ htomux s hs)
  refine ⟨?_, ?_, ?_, ?_, ?_, ?_, ?_⟩
  · rw [← Multiset.cons_coe, Multiset.cons_add, ← Multiset.add_cons]
    exact hrest.balanced
  · intro s hs
    rcases List.mem_cons.mp hs with rfl | hs
    · exact hc.fresh
    · exact fun hR => hrest.fresh s hs (Multiset.mem_cons_of_mem hR)
  · intro s hs
    rcases List.mem_cons.mp hs with rfl | hs
    · exact hc.block
    · rw [← hpools]
      exact hrest.block s hs
  · refine (htouch.mono fun s hs => ?_).trans
      (hrest.touches.mono fun s hs => List.mem_cons_of_mem m hs)
    rw [List.mem_singleton] at hs
    rw [hs]
    exact List.mem_cons_self
  · rw [hrest.ok_iff, hpools, hc.free, Heap.setPayload_free, List.length_cons, List.length_cons]
    constructor
    · rintro (rfl | ⟨hlen, -⟩)
      · exact .inr ⟨by simp, happly⟩
      · exact .inr ⟨by omega, happly⟩
    · rintro (hnil | ⟨hlen, -⟩)
      · simp at hnil
      · exact .inr ⟨by omega, happly⟩
  · intro hall
    rw [List.length_cons, List.length_cons, hrest.length hall]
  · intro hall
    obtain ⟨stale, hstale⟩ := hc.payload
    have hm : h'.payload m = (h₁.setPayload m x).payload m :=
      hrest.touches.payload m fun hmem => hrest.fresh m hmem (Multiset.mem_cons_self m R)
    have hchain := hrest.chain hall
    rw [hpools, Heap.setPayload_payload, if_pos rfl] at hchain
    rw [Heap.setPayload_payload, if_pos rfl] at hm
    have ht : h₁.payload t = h.payload t := hc.touches.payload t (hother t List.mem_cons_self)
    have hmap : rest.map (h₁.setPayload m x).payload = rest.map h.payload := by
      apply List.map_congr_left
      intro s hs
      exact htouch.payload s (hother s (List.mem_cons_of_mem t hs))
    rw [hmap] at hchain
    rw [List.map_cons, List.map_cons, hm]
    refine .cons lastSequence stale happly ?_ hchain
    rw [hx, hstale, ht]

theorem muxLoop_spec (original : Bool) (stats : Nat → Nat → Value) (ml : List MappingEntry)
    (lastSequence : BitVec 32) (prev : SampleId) (tomux : List SampleId)
    (hb : Balanced z h R) (hprev : prev ∈ R) (hblock : prev ∈ (h.pools pool).blocks)
    (htomux : ∀ s ∈ tomux, s ∈ R) :
    Muxed z R pool original stats ml h prev tomux
      (muxLoop original stats ml h lastSequence prev tomux).1
      (muxLoop original stats ml h lastSequence prev tomux).2.2.1
      (muxLoop original stats ml h lastSequence prev tomux).2.2.2 := by
  induction tomux generalizing h R lastSequence prev with
  | nil =>
    refine ⟨?_, ?_, ?_, .refl _ _, ?_, fun _ => rfl, fun _ => .nil _⟩
    · simpa [muxLoop] using hb
    · simp [muxLoop]
    · simp [muxLoop]
    · simp [muxLoop]
  | cons t rest ih =>
    unfold muxLoop
    rcases sampleClone_spec hb hprev hblock with ⟨hnil, hnone⟩ | ⟨h₁, m, hsome, hc⟩
    · rw [hnone]
      refine ⟨?_, by simp, by simp, .refl _ _, ?_, by simp, by simp⟩
      · simpa using hb
      · simp [hnil]
    · rw [hsome]
      dsimp only
      have hblock₁ : m ∈ (h₁.pools pool).blocks := by
        rw [hc.touches.pools]
        exact hc.block
      have hcap := (hc.balanced.held_in (Multiset.mem_cons_self m R) hblock₁).2
      have hok := muxPayload_ok original lastSequence stats ml (h₁.samples m).capacity
        (h₁.payload m) (h₁.payload t)
      rw [hcap, hc.touches.pools] at hok ⊢
      have hb₂ := hc.balanced.setPayload (Multiset.mem_cons_self m R)
        (muxPayload original lastSequence stats ml (h.pools pool).capacity (h₁.payload m)
          (h₁.payload t)).1
      split
      · rename_i hyes
        exact .cons hc htomux (hok.mp hyes) rfl (ih _ m hb₂ (Multiset.mem_cons_self m R) hblock₁
          (fun s hs => Multiset.mem_cons_of_mem (htomux s (List.mem_cons_of_mem t hs))))
      · rename_i hno
        refine ⟨hb₂, ?_, ?_, hc.touches.trans (.setPayload List.mem_cons_self _), ?_, by simp, by simp⟩
        · simpa using hc.fresh
        · simpa using hc.block
        · rw [hok] at hno
          simp [hno]

end VillasNode
