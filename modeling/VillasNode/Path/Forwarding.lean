import VillasNode.Path.Secondaries

/-!
# Forwarding to the secondaries

The steps of `path_source_read` of the master keep the invariant. While it
pushes to one loopback after the other, what is still to come counts as theirs.
-/

namespace VillasNode.FanOut

variable {σ : Type*} {z : SampleId → Sample} {h h' : Heap} {R : Multiset SampleId}
  {s s' : System σ} {i j : Nat} {P : PoolId} {x x' : Secondary}

/-! ## The steps of the master -/

theorem Inv.master (hinv : Inv z i P s) (hsecondaries : s'.secondaries = s.secondaries)
    (hpools : s'.path.heap.pools = s.path.heap.pools) (hpool : s'.path.pool = s.path.pool)
    (hlast : s'.path.lastSample = s.path.lastSample)
    (hsource : ∀ ps, s'.path.sources[i]? = some ps → ps.pool = P)
    (hphase : s'.phase.Blocks (s.path.heap.pools P).blocks (s.path.heap.pools s.path.pool).blocks)
    (hpayload : ∀ y, y ∈ secondaryRefs s.secondaries ∨ (∃ j, y ∈ s.phase.pending j) →
      y ∉ (s.path.heap.pools s.path.pool).blocks → s'.path.heap.payload y = s.path.heap.payload y)
    (news : List SampleId) (hnews : ∀ y ∈ news, Short s' P y)
    (hkept : s'.kept = s.kept ++ news.map s'.path.heap.payload)
    (hpending : ∀ j < s.secondaries.length, s'.phase.pending j = s.phase.pending j ++ news)
    (hbalanced : ∃ R, Balanced z s'.path.heap
      (s'.path.refs + (secondaryRefs s.secondaries + (s'.phase.refs + R)))) : Inv z i P s' := by
  have hne : ∀ q y, q ≠ s.path.pool → y ∈ (s.path.heap.pools q).blocks →
      y ∉ (s.path.heap.pools s.path.pool).blocks := by
    intro q y hq hy hown
    obtain ⟨R, hb⟩ := hinv.balanced
    exact hq (hb.apart _ _ _ hy hown)
  refine ⟨?_, ?_, ?_, hsource, ?_, ?_, ?_⟩
  · rw [hsecondaries]
    exact hbalanced
  · rw [hlast, hpools, hpool]
    exact hinv.last
  · rw [hpool]
    exact hinv.apart
  · rw [hpools, hpool]
    exact hphase
  · intro j x hget
    rw [hsecondaries] at hget
    have hok := hinv.done j x hget
    obtain ⟨hlt, -⟩ := List.getElem?_eq_some_iff.mp hget
    apply hok.frame hpools hpool _ news hnews hkept (hpending j hlt)
    intro y hy
    obtain hy | hy := hy
    · apply hpayload y (.inl (mem_secondaryRefs hget hy))
      obtain hblock | hblock := hok.refs_block hy
      · exact hne P y hinv.apart hblock
      · exact hne x.pool y hok.pool.2 hblock
    · apply hpayload y (.inr ⟨j, hy⟩)
      exact hne P y hinv.apart (Phase.pending_blocks hinv.phase hy)
  · rw [hsecondaries]
    exact hinv.pools

theorem Inv.fetch (hinv : Inv z i P s) {results : List DriverRead}
    (hstep : s.fetch i results = some s') : Inv z i P s' := by
  unfold System.fetch at hstep
  split at hstep
  · rename_i ps hphase hget
    dsimp only at hstep
    split at hstep
    · simp at hstep
    rename_i node heap smps recv hnode
    obtain ⟨R, hb⟩ := hinv.balanced
    obtain ⟨rest, hrest, hset⟩ := sourceRefs_set hget
    have hb₀ : Balanced z s.path.heap
        (ps.refs + (s.path.ownRefs + (rest + (secondaryRefs s.secondaries + R)))) := by
      convert hb using 1
      unfold Path.refs
      rw [hrest, hphase, Phase.refs]
      abel
    let ev : Reading := ⟨results, fun _ _ => 0, fun _ => []⟩
    have hf : Fetched z _ s.path ps ev _ _ node heap smps recv := fetch_spec hb₀ hnode
    have hsource : ∀ ps', (s.path.sources.set i { ps with node })[i]? = some ps' → ps'.pool = P := by
      intro ps' hps'
      obtain ⟨hlt, -⟩ := List.getElem?_eq_some_iff.mp hget
      rw [List.getElem?_set_self hlt, Option.some.injEq] at hps'
      subst hps'
      exact hinv.source ps hget
    have hpayload : ∀ y, y ∈ secondaryRefs s.secondaries ∨ (∃ j, y ∈ s.phase.pending j) →
        y ∉ (s.path.heap.pools s.path.pool).blocks → heap.payload y = s.path.heap.payload y := by
      rintro y (hy | ⟨j, hy⟩) _
      · exact hf.payload y (by simp [hy])
      · simp [hphase, Phase.pending] at hy
    have hrefs : ∀ state, Path.refs { s.path with
        heap, state, sources := s.path.sources.set i { ps with node } } =
        retainedRefs node.hooks.retained + (queueRefs ps.secondaries + (rest + s.path.ownRefs)) := by
      intro state
      unfold Path.refs
      rw [hset]
      unfold PathSource.refs
      show _ + _ + _ + s.path.ownRefs = _
      abel
    split at hstep
    · -- Nothing was kept.
      cases hstep
      refine hinv.master rfl hf.pools rfl rfl hsource ?_ hpayload [] (by simp) (by simp) ?_ ?_
      · rw [hphase]
        trivial
      · simp
      · refine ⟨(smps : Multiset SampleId) + R, ?_⟩
        convert hf.balanced using 1
        rw [hrefs, hphase, Phase.refs]
        abel
    · split at hstep
      · rename_i hpos hshort
        cases hstep
        have hsplit : (smps : Multiset SampleId) =
            (smps.take recv.toNat : Multiset SampleId) + (smps.drop recv.toNat : Multiset SampleId) := by
          rw [Multiset.coe_add, List.take_append_drop]
        have hblock : ∀ y ∈ smps.take recv.toNat, y ∈ (s.path.heap.pools P).blocks := by
          intro y hy
          rw [← hinv.source ps hget]
          exact hf.block y (List.mem_of_mem_take hy)
        refine hinv.master rfl hf.pools rfl rfl hsource hblock hpayload (smps.take recv.toNat) ?_ rfl
          ?_ ?_
        · intro y hy
          have hheld : y ∈ retainedRefs node.hooks.retained + ((smps : Multiset SampleId) +
              (queueRefs ps.secondaries + (s.path.ownRefs + (rest +
                (secondaryRefs s.secondaries + R))))) := by
            simp [List.mem_of_mem_take hy]
          have hP : y ∈ (heap.pools P).blocks := by
            rw [hf.pools]
            exact hblock y hy
          have hcapacity := (hf.balanced.held_in hheld hP).2
          unfold Short
          exact hcapacity ▸ hshort y hy
        · intro j _
          rw [hphase]
          rfl
        · refine ⟨(smps.drop recv.toNat : Multiset SampleId) + R, ?_⟩
          convert hf.balanced using 1
          rw [hrefs, hsplit, Phase.refs]
          abel
      · simp at hstep
  · simp at hstep

theorem Inv.incref (hinv : Inv z i P s) {smps : List SampleId} {phase : Phase}
    (hsmps : ∀ y ∈ smps, y ∈ s.phase.refs)
    (hphase : phase.Blocks (s.path.heap.pools P).blocks (s.path.heap.pools s.path.pool).blocks)
    (hpending : ∀ j < s.secondaries.length, phase.pending j = s.phase.pending j)
    (hrefs : ∃ lost, (smps : Multiset SampleId) + s.phase.refs = phase.refs + lost) :
    Inv z i P { s.setHeap (s.path.heap.sampleIncrefMany smps) with phase } := by
  have ht := Touches.increfMany s.path.heap smps []
  refine hinv.master rfl ht.pools rfl rfl hinv.source hphase ?_ [] (by simp) ?_ ?_ ?_
  · intro y _ _
    exact ht.payload y (by simp)
  · simp [System.setHeap]
  · simpa using hpending
  · obtain ⟨R, hb⟩ := hinv.balanced
    obtain ⟨lost, hlost⟩ := hrefs
    have hheld : ∀ y ∈ smps,
        y ∈ s.path.refs + (secondaryRefs s.secondaries + (s.phase.refs + R)) := by
      intro y hy
      simp [hsmps y hy]
    have hb₁ := hb.increfMany hheld
    refine ⟨lost + R, ?_⟩
    show Balanced z (s.path.heap.sampleIncrefMany smps)
      (s.path.refs + (secondaryRefs s.secondaries + (phase.refs + (lost + R))))
    convert hb₁ using 1
    have hsum : phase.refs + (lost + R) = (smps : Multiset SampleId) + s.phase.refs + R := by
      rw [hlost, add_assoc]
    rw [hsum]
    abel

theorem Inv.forward (hinv : Inv z i P s) (hstep : s.forward = some s') : Inv z i P s' := by
  unfold System.forward at hstep
  split at hstep
  · rename_i read j hphase
    split at hstep
    · simp at hstep
    rename_i x hget
    rw [if_pos (hinv.done j x hget).running, Option.some.injEq] at hstep
    subst hstep
    have hblocks := hinv.phase
    rw [hphase] at hblocks
    apply hinv.incref
    · intro y hy
      rw [hphase]
      exact hy
    · intro y hy
      rw [List.mem_append, or_self] at hy
      exact hblocks y hy
    · intro k _
      rw [hphase]
      simp only [Phase.pending]
      split
      · rfl
      · split
        · rfl
        · rfl
    · refine ⟨0, ?_⟩
      rw [hphase, Phase.refs, Phase.refs, add_zero]
  · simp at hstep

theorem Inv.mux (hinv : Inv z i P s) {ev : Reading} (hstep : s.mux i ev = some s') :
    Inv z i P s' := by
  unfold System.mux at hstep
  split at hstep
  · rename_i read j ps hphase hget
    split at hstep
    · rename_i hall
      obtain ⟨R, hb⟩ := hinv.balanced
      rw [hphase, Phase.refs] at hb
      have hblocks := hinv.phase
      rw [hphase] at hblocks
      have hown := mem_ownRefs s.path
      obtain ⟨hsame, hownRefs, hsources, hm⟩ := mux_spec s.path i ps read ev hinv.last
        (by simp [Path.refs, hown]) (fun y hy => by simp [hy]) hb
      dsimp only at hstep
      cases hstep
      generalize s.path.mux i ps read ev = r at *
      obtain ⟨path, muxed, ok⟩ := r
      dsimp only at *
      have hrefs : path.refs = s.path.refs := by
        unfold Path.refs
        rw [hownRefs, hsources]
      refine hinv.master rfl hm.touches.pools hsame.pool hsame.lastSample
        (by rw [hsources]; exact hinv.source) ?_ ?_ [] (by simp) (by simp) ?_ ?_
      · cases ok with
        | false => trivial
        | true => exact ⟨hblocks, fun m hmem => hm.block m hmem⟩
      · intro y hy hnot
        exact hm.touches.payload y fun hmem => hnot (hm.block y hmem)
      · intro k hk
        have hlt : k < j := by omega
        cases ok <;> simp [hphase, Phase.pending, hlt]
      · cases ok with
        | false =>
          refine ⟨(read : Multiset SampleId) + (muxed + R), ?_⟩
          convert hm.balanced using 1
          rw [if_neg Bool.false_ne_true, hrefs, Phase.refs]
          abel
        | true =>
          refine ⟨R, ?_⟩
          convert hm.balanced using 1
          rw [if_pos rfl, hrefs, Phase.refs]
          abel
    · simp at hstep
  · simp at hstep

theorem Inv.finish (hinv : Inv z i P s) (hstep : s.finish i = some s') : Inv z i P s' := by
  unfold System.finish at hstep
  split at hstep
  · rename_i read muxed hphase
    obtain ⟨⟨path, ret⟩, hfinish, rfl⟩ := Option.map_eq_some_iff.mp hstep
    obtain ⟨R, hb⟩ := hinv.balanced
    have hblocks := hinv.phase
    rw [hphase] at hb hblocks
    have hb₀ : Balanced z s.path.heap ((muxed : Multiset SampleId) + ((read : Multiset SampleId) +
        (s.path.ownRefs + (sourceRefs s.path.sources + (secondaryRefs s.secondaries + R))))) := by
      convert hb using 1
      unfold Path.refs
      rw [Phase.refs]
      abel
    obtain ⟨hsame, hsources, hpayload, lost, hb₁, -⟩ := finish_spec hblocks.2 hb₀ hfinish
    have hlast : s.path.lastSample ∈ (muxed : Multiset SampleId) + ((read : Multiset SampleId) +
        (s.path.ownRefs + (sourceRefs s.path.sources + (secondaryRefs s.secondaries + R)))) := by
      simp [mem_ownRefs s.path]
    have htouches := (keepLast_spec muxed hlast hb₀).2
    refine hinv.master rfl hsame.pools hsame.pool hsame.lastSample
      (by rw [hsources]; exact hinv.source) trivial ?_ [] (by simp) (by simp) ?_ ?_
    · rintro y (hy | ⟨k, hy⟩) hnot
      · rw [hpayload y (by simp [hy]) fun hmem => hnot (hblocks.2 y hmem)]
        apply htouches.payload
        rw [List.mem_singleton]
        rintro rfl
        exact hnot hinv.last
      · simp [hphase, Phase.pending] at hy
    · simp [hphase, Phase.pending]
    · refine ⟨lost + R, ?_⟩
      convert hb₁ using 1
      unfold Path.refs
      rw [hsources, Phase.refs]
      abel
  · simp at hstep

theorem Inv.other (hinv : Inv z i P s) {i' : Nat} {ev : Reading}
    (hstep : s.other i i' ev = some s') : Inv z i P s' := by
  unfold System.other at hstep
  split at hstep
  · rename_i hphase
    split at hstep
    · simp at hstep
    rename_i hne
    obtain ⟨⟨path, ret⟩, hread, rfl⟩ := Option.map_eq_some_iff.mp hstep
    obtain ⟨R, hb⟩ := hinv.balanced
    rw [hphase, Phase.refs, zero_add] at hb
    obtain ⟨hsame, ⟨ps, ps', -, hsources, -⟩, hpayload, lost, hc, -⟩ :=
      pathSourceRead_spec ⟨hb, hinv.last⟩ hread
    refine hinv.master rfl hsame.pools hsame.pool hsame.lastSample ?_ ?_ ?_ [] (by simp) (by simp)
      (by simp) ?_
    · intro ps₁ hget
      rw [hsources, List.getElem?_set_ne (by omega)] at hget
      exact hinv.source ps₁ hget
    · rw [hphase]
      trivial
    · rintro y (hy | ⟨k, hy⟩) hnot
      · apply hpayload y (by simp [hy])
        rintro rfl
        exact hnot hinv.last
      · simp [hphase, Phase.pending] at hy
    · refine ⟨lost + R, ?_⟩
      convert hc.balanced using 1
      rw [hphase, Phase.refs]
      abel
  · simp at hstep

theorem Inv.set (hinv : Inv z i P s) (heap : Heap) (phase : Phase)
    (hget : s.secondaries[j]? = some x) (hpools : heap.pools = s.path.heap.pools)
    (hphase : phase.Blocks (s.path.heap.pools P).blocks (s.path.heap.pools s.path.pool).blocks)
    (hpending : ∀ k ≠ j, phase.pending k = s.phase.pending k)
    (hpayload : ∀ q ≠ x.pool, ∀ y ∈ (s.path.heap.pools q).blocks,
      heap.payload y = s.path.heap.payload y)
    (hpool : x'.pool = x.pool)
    (hok : SecondaryOk { s.setHeap heap with secondaries := s.secondaries.set j x', phase } P j x')
    (hbalanced : ∀ R rest, Balanced z s.path.heap (x.refs + (s.phase.refs + (rest + R))) →
      ∃ lost, Balanced z heap (x'.refs + (phase.refs + (rest + (lost + R))))) :
    Inv z i P { s.setHeap heap with secondaries := s.secondaries.set j x', phase } := by
  obtain ⟨hlt, -⟩ := List.getElem?_eq_some_iff.mp hget
  have hgets : ∀ (k : Nat) (y : Secondary), (s.secondaries.set j x')[k]? = some y →
      (k = j ∧ y = x') ∨ (k ≠ j ∧ s.secondaries[k]? = some y) := by
    intro k y hy
    by_cases hk : k = j
    · subst hk
      rw [List.getElem?_set_self hlt, Option.some.injEq] at hy
      exact .inl ⟨rfl, hy.symm⟩
    · rw [List.getElem?_set_ne (Ne.symm hk)] at hy
      exact .inr ⟨hk, hy⟩
  have hxok := hinv.done j x hget
  refine ⟨?_, ?_, hinv.apart, hinv.source, ?_, ?_, ?_⟩
  · obtain ⟨R, hb⟩ := hinv.balanced
    obtain ⟨rest, hrest, hset⟩ := secondaryRefs_set hget
    obtain ⟨lost, hb₁⟩ := hbalanced R (s.path.refs + rest) (by
      convert hb using 1
      rw [hrest]
      abel)
    refine ⟨lost + R, ?_⟩
    show Balanced z heap
      (s.path.refs + (secondaryRefs (s.secondaries.set j x') + (phase.refs + (lost + R))))
    convert hb₁ using 1
    rw [hset]
    abel
  · show s.path.lastSample ∈ (heap.pools s.path.pool).blocks
    rw [hpools]
    exact hinv.last
  · show phase.Blocks (heap.pools P).blocks (heap.pools s.path.pool).blocks
    rw [hpools]
    exact hphase
  · intro k y hy
    obtain ⟨rfl, rfl⟩ | ⟨hk, hy⟩ := hgets k y hy
    · exact hok
    · have hyok := hinv.done k y hy
      refine hyok.frame hpools rfl ?_ [] (by simp) (by simp [System.setHeap]) ?_
      · rintro d (hd | hd)
        · obtain hblock | hblock := hyok.refs_block hd
          · exact hpayload P hxok.pool.1.symm d hblock
          · exact hpayload y.pool (hinv.pools k j y x hy hget hk) d hblock
        · exact hpayload P hxok.pool.1.symm d (Phase.pending_blocks hinv.phase hd)
      · rw [List.append_nil]
        exact hpending k hk
  · intro k l y y' hy hy' hkl
    obtain ⟨rfl, rfl⟩ | ⟨-, hold⟩ := hgets k y hy
    · obtain ⟨rfl, -⟩ | ⟨-, hold'⟩ := hgets l y' hy'
      · exact absurd rfl hkl
      · rw [hpool]
        exact hinv.pools k l x y' hget hold' hkl
    · obtain ⟨rfl, rfl⟩ | ⟨-, hold'⟩ := hgets l y' hy'
      · rw [hpool]
        exact hinv.pools k l y x hold hget hkl
      · exact hinv.pools k l y y' hold hold' hkl

theorem Inv.push (hinv : Inv z i P s) (hstep : s.push = some s') : Inv z i P s' := by
  unfold System.push at hstep
  split at hstep
  · rename_i read j hphase
    cases hstep
    have hblocks := hinv.phase
    rw [hphase] at hblocks
    refine hinv.master rfl rfl rfl rfl hinv.source ?_ (fun _ _ _ => rfl) [] (by simp) (by simp) ?_ ?_
    · intro y hy
      exact hblocks y (by simp [hy])
    · intro k _
      simp only [hphase, Phase.pending, List.append_nil]
      by_cases hk : k < j
      · rw [if_pos hk, if_pos (by omega)]
      · rw [if_neg hk]
        by_cases heq : k = j
        · rw [if_pos heq, if_pos (by omega)]
        · rw [if_neg heq, if_neg (by omega)]
    · obtain ⟨R, hb⟩ := hinv.balanced
      rw [hphase] at hb
      refine ⟨R, ?_⟩
      simpa [Phase.refs] using hb
  · rename_i read y rest j hphase
    split at hstep
    · simp at hstep
    rename_i x hget
    have hblocks := hinv.phase
    rw [hphase] at hblocks
    have hok := hinv.done j x hget
    split at hstep
    · cases hstep
      have hy : y ∈ (s.path.heap.pools P).blocks := hblocks y (by simp)
      have hpending : s.phase.pending j = y :: rest := by simp [hphase, Phase.pending]
      refine hinv.set s.path.heap _ hget rfl ?_ ?_ (fun _ _ _ _ => rfl) rfl ?_ ?_
      · intro d hd
        exact hblocks d (by simp at hd ⊢; tauto)
      · intro k hk
        simp [hphase, Phase.pending, hk]
      · have hshort := hok.short
        have hstream := hok.stream
        rw [hpending] at hshort
        unfold System.stream at hstream
        rw [hpending] at hstream
        refine ⟨hok.running, hok.pool, hok.capacity, ?_, ?_, hok.own, hok.nodup, hok.length,
          hok.copied, ?_⟩
        · intro d hd
          simp only [Secondary.push, ← List.append_assoc, List.mem_append (s := x.cpys ++ _),
            List.mem_singleton] at hd
          obtain hd | rfl := hd
          · exact hok.shared d hd
          · exact hy
        · intro d hd
          apply hshort d
          simpa [Secondary.push, Phase.pending] using hd
        · show s.kept.map view = _
          rw [hstream]
          simp [System.stream, Secondary.push, Phase.pending, System.setHeap]
      · intro R rest' hb
        refine ⟨0, ?_⟩
        convert hb using 1
        simp only [Secondary.refs, Secondary.push, hphase, Phase.refs, ← Multiset.coe_add,
          ← Multiset.singleton_add, ← Multiset.cons_coe, Multiset.coe_nil]
        abel
    · cases hstep
      apply hinv.incref
      · intro d hd
        rw [hphase, Phase.refs]
        exact Multiset.mem_add.mpr (.inr hd)
      · exact hinv.phase
      · exact fun _ _ => rfl
      · exact ⟨_, add_comm _ _⟩
  · simp at hstep

end VillasNode.FanOut
