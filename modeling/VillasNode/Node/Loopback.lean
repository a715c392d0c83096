import VillasNode.Path.Ledger

/-!
# References taken by loopback nodes

`node_write` with the drivers `loopback` and `loopback_internal`, which are the
same in `lib/nodes/loopback.cpp` (with a queue of at least two places) and
`lib/nodes/loopback_internal.cpp`, while other threads read from the queue. A driver takes a reference to each sample of
a batch before it knows which of them the queue takes.
-/

namespace VillasNode.LoopbackNode

variable {σ : Type*} {z : SampleId → Sample} {R : Multiset SampleId}

/-- `read` are the samples that other threads have read meanwhile. -/
structure Pushed where
  loopback : Loopback
  heap : Heap
  pushed : Nat
  read : List SampleId

/-- `queue_push_many`. Before each push, as many samples are read as `reads` says. -/
def pushMany (l : Loopback) (h : Heap) : List SampleId → List Nat → Pushed
  | [], _ => ⟨l, h, 0, []⟩
  | s :: smps, reads =>
    let read := l.queue.take (reads.headD 0)
    let (l, h) := loopbackDrain l h (reads.headD 0)
    if l.queue.length < l.queueSize then
      let r := pushMany { l with queue := l.queue ++ [s] } h smps reads.tail
      ⟨r.loopback, r.heap, r.pushed + 1, read ++ r.read⟩
    else ⟨l, h, 0, read⟩

/-- `loopback_write` and `loopback_internal_write` -/
def loopbackWrite (l : Loopback) (h : Heap) (smps : List SampleId) (reads : List Nat) : Pushed :=
  pushMany l (h.sampleIncrefMany smps) smps reads

structure Written where
  loopback : Loopback
  heap : Heap
  accepted : List SampleId
  read : List SampleId

/-- The `while` loop of `node_write`, with the reads of each round. -/
def writeRounds (l : Loopback) (h : Heap) (smps : List SampleId) : List (List Nat) → Option Written
  | [] => if smps = [] then some ⟨l, h, [], []⟩ else none
  | reads :: rounds =>
    if smps = [] then some ⟨l, h, [], []⟩
    else
      let r := loopbackWrite l h smps reads
      (writeRounds r.loopback r.heap (smps.drop r.pushed) rounds).map fun w =>
        { w with accepted := smps.take r.pushed ++ w.accepted, read := r.read ++ w.read }

/-- `node_write` -/
def nodeWrite (n : NodeDirection σ) (l : Loopback) (h : Heap) (smps : List SampleId)
    (rounds : List (List Nat)) : Option (HookList σ × Written) :=
  if n.state ≠ .started ∧ n.state ≠ .connected then some (n.hooks, ⟨l, h, [], []⟩)
  else
    match n.hooks.hookListProcess h smps with
    | (_, _, _, none) => none
    | (hooks, h, smps, some cnt) => (writeRounds l h (smps.take cnt) rounds).map fun w => (hooks, w)

/-! ## Reference counts -/

def refcnt (h : Heap) (s : SampleId) : Int := (h.samples s).refcnt

theorem refcnt_incref (h : Heap) (x s : SampleId) :
    refcnt (h.sampleIncref x) s = refcnt h s + [x].count s := by
  unfold refcnt Heap.sampleIncref
  rw [Heap.setRefcnt_samples]
  by_cases hs : s = x
  · simp [hs]
  · simp [hs, Ne.symm hs]

theorem refcnt_decref (h : Heap) (x s : SampleId) :
    refcnt (h.sampleDecref x) s = refcnt h s - [x].count s := by
  unfold refcnt
  rw [Heap.decref_samples, Heap.setRefcnt_samples]
  by_cases hs : s = x
  · simp [hs]
  · simp [hs, Ne.symm hs]

theorem refcnt_increfMany (h : Heap) (smps : List SampleId) (s : SampleId) :
    refcnt (h.sampleIncrefMany smps) s = refcnt h s + smps.count s := by
  unfold Heap.sampleIncrefMany
  induction smps generalizing h with
  | nil => simp
  | cons x smps ih =>
    have hcount : (x :: smps).count s = [x].count s + smps.count s := by
      rw [← List.count_append, List.singleton_append]
    rw [List.foldl_cons, ih, refcnt_incref, hcount]
    push_cast
    omega

theorem refcnt_decrefMany (h : Heap) (smps : List SampleId) (s : SampleId) :
    refcnt (h.sampleDecrefMany smps) s = refcnt h s - smps.count s := by
  unfold Heap.sampleDecrefMany
  induction smps generalizing h with
  | nil => simp
  | cons x smps ih =>
    have hcount : (x :: smps).count s = [x].count s + smps.count s := by
      rw [← List.count_append, List.singleton_append]
    rw [List.foldl_cons, ih, refcnt_decref, hcount]
    push_cast
    omega

theorem refcnt_setPayload (h : Heap) (x s : SampleId) (payload : Payload) :
    refcnt (h.setPayload x payload) s = refcnt h s := by
  unfold refcnt
  rw [Heap.setPayload_samples]

/-! ## Hooks -/

/-- The references of the hooks themselves. -/
def hookRefs (hs : HookList σ) (s : SampleId) : Int := (retainedRefs hs.retained).count s

theorem refcnt_retain (h : Heap) (smp s : SampleId) (prev : Option SampleId)
    (retention : Retention) :
    refcnt (h.retain smp prev retention).1 s - ((h.retain smp prev retention).2.toList.count s : Int) =
      refcnt h s - (prev.toList.count s : Int) := by
  cases retention with
  | keep => cases prev <;> rfl
  | take =>
    cases prev with
    | none => simp [Heap.retain, refcnt_incref]
    | some prev =>
      simp only [Heap.retain, refcnt_incref, refcnt_decref, Option.toList_some]
      omega
  | drop => cases prev <;> simp [Heap.retain, refcnt_decref]

theorem refcnt_retainAll (h : Heap) (smp s : SampleId) (retention : Nat → Retention) (i : Nat)
    (prevs : List (Option SampleId)) :
    refcnt (h.retainAll smp retention i prevs).1 s -
        ((retainedRefs (h.retainAll smp retention i prevs).2).count s : Int) =
      refcnt h s - ((retainedRefs prevs).count s : Int) := by
  induction prevs generalizing h i with
  | nil => rfl
  | cons prev prevs ih =>
    have hone := refcnt_retain h smp s prev (retention i)
    have hrest := ih (h.retain smp prev (retention i)).1 (i + 1)
    simp only [Heap.retainAll, retainedRefs, Multiset.count_add, Multiset.coe_count]
    push_cast
    omega

/-- Hooks change the reference counts by the references they keep, and not otherwise. -/
def Settles (hs hs' : HookList σ) (h h' : Heap) : Prop :=
  ∀ s, refcnt h' s - hookRefs hs' s = refcnt h s - hookRefs hs s

theorem Settles.trans {hs₁ hs₂ hs₃ : HookList σ} {h₁ h₂ h₃ : Heap} (h₁₂ : Settles hs₁ hs₂ h₁ h₂)
    (h₂₃ : Settles hs₂ hs₃ h₂ h₃) : Settles hs₁ hs₃ h₁ h₃ := by
  intro s
  rw [h₂₃ s, h₁₂ s]

theorem processOne_settles (hs : HookList σ) (h : Heap) (i : Nat) (smp : SampleId) :
    Settles hs (hs.processOne h i smp).1 h (hs.processOne h i smp).2.1 := by
  intro s
  simp only [HookList.processOne, refcnt_setPayload]
  exact refcnt_retainAll ..

theorem processChain_settles (hs : HookList σ) (h : Heap) (smp : SampleId) (i n : Nat) :
    Settles hs (hs.processChain h smp i n).1 h (hs.processChain h smp i n).2.1 := by
  induction n generalizing hs h i with
  | zero => exact fun _ => rfl
  | succ n ih =>
    have hone := processOne_settles hs h i smp
    unfold HookList.processChain
    rcases hr : hs.processOne h i smp with ⟨hs₁, h₁, reason⟩
    rw [hr] at hone
    cases reason with
    | ok => exact hone.trans (ih hs₁ h₁ (i + 1))
    | _ => exact hone

theorem processLoop_settles (hs : HookList σ) (h : Heap) (smps : List SampleId)
    (current processed n : Nat) :
    Settles hs (hs.processLoop h smps current processed n).1 h
      (hs.processLoop h smps current processed n).2.1 := by
  induction n generalizing hs h smps current processed with
  | zero => exact fun _ => rfl
  | succ n ih =>
    unfold HookList.processLoop
    cases smps[current]? with
    | none => exact fun _ => rfl
    | some smp =>
      have hchain := processChain_settles hs h smp 0 hs.retained.length
      rcases hr : hs.processChain h smp 0 hs.retained.length with ⟨hs₁, h₁, reason⟩
      rw [hr] at hchain
      simp only [hr]
      cases reason with
      | error => exact hchain
      | _ => exact hchain.trans (ih _ _ _ _ _)

theorem hookListProcess_settles (hs : HookList σ) (h : Heap) (smps : List SampleId) :
    Settles hs (hs.hookListProcess h smps).1 h (hs.hookListProcess h smps).2.1 := by
  unfold HookList.hookListProcess
  split
  · exact fun _ => rfl
  · exact processLoop_settles _ _ _ _ _ _

/-! ## Rounds -/

/-- Every sample finds room in the queue when it is pushed. -/
def HasRoom (l : Loopback) : List SampleId → List Nat → Prop
  | [], _ => True
  | s :: smps, reads =>
    let queue := l.queue.drop (reads.headD 0)
    queue.length < l.queueSize ∧ HasRoom { l with queue := queue ++ [s] } smps reads.tail

section
variable (l : Loopback) (h : Heap) (smps : List SampleId) (reads : List Nat)

@[simp]
theorem pushMany_nil : pushMany l h [] reads = ⟨l, h, 0, []⟩ := rfl

@[simp]
theorem hasRoom_nil : HasRoom l [] reads := trivial

theorem hasRoom_cons (x : SampleId) : HasRoom l (x :: smps) reads ↔
    (l.queue.drop (reads.headD 0)).length < l.queueSize ∧
      HasRoom { l with queue := l.queue.drop (reads.headD 0) ++ [x] } smps reads.tail := Iff.rfl

theorem pushMany_cons (x : SampleId) :
    pushMany l h (x :: smps) reads =
      if (l.queue.drop (reads.headD 0)).length < l.queueSize then
        let r := pushMany { l with queue := l.queue.drop (reads.headD 0) ++ [x] }
          (h.sampleDecrefMany (l.queue.take (reads.headD 0))) smps reads.tail
        ⟨r.loopback, r.heap, r.pushed + 1, l.queue.take (reads.headD 0) ++ r.read⟩
      else
        ⟨{ l with queue := l.queue.drop (reads.headD 0) },
          h.sampleDecrefMany (l.queue.take (reads.headD 0)), 0, l.queue.take (reads.headD 0)⟩ :=
  rfl

theorem pushMany_refcnt (s : SampleId) :
    refcnt (pushMany l h smps reads).heap s =
      refcnt h s - ((pushMany l h smps reads).read.count s : Int) := by
  induction smps generalizing l h reads with
  | nil => simp
  | cons x smps ih =>
    rw [pushMany_cons]
    split
    · dsimp only
      rw [ih, refcnt_decrefMany, List.count_append]
      push_cast
      omega
    · exact refcnt_decrefMany ..

theorem pushMany_pushed_le : (pushMany l h smps reads).pushed ≤ smps.length := by
  induction smps generalizing l h reads with
  | nil => simp
  | cons x smps ih =>
    rw [pushMany_cons]
    split
    · exact Nat.succ_le_succ (ih ..)
    · exact Nat.zero_le _

theorem pushMany_all_iff :
    (pushMany l h smps reads).pushed = smps.length ↔ HasRoom l smps reads := by
  induction smps generalizing l h reads with
  | nil => simp
  | cons x smps ih =>
    rw [pushMany_cons, hasRoom_cons]
    split
    · rename_i hlt
      simp only [hlt, true_and, ← ih _ (h.sampleDecrefMany (l.queue.take (reads.headD 0))),
        List.length_cons, Nat.add_right_cancel_iff]
    · rename_i hlt
      simp only [hlt, false_and, iff_false, List.length_cons]
      omega

theorem pushMany_balanced
    (hb : Balanced z h ((l.queue : Multiset SampleId) + ((smps : Multiset SampleId) + R))) :
    Balanced z (pushMany l h smps reads).heap
      (((pushMany l h smps reads).loopback.queue : Multiset SampleId) +
        (((smps.drop (pushMany l h smps reads).pushed : List SampleId) : Multiset SampleId) + R)) := by
  induction smps generalizing l h reads with
  | nil => simpa using hb
  | cons x smps ih =>
    obtain ⟨hb₁, -⟩ := loopbackDrain_spec l (reads.headD 0) hb
    rw [pushMany_cons]
    split
    · apply ih
      have hmove : ((l.queue.drop (reads.headD 0) ++ [x] : List SampleId) : Multiset SampleId) +
          ((smps : Multiset SampleId) + R) =
          ((l.queue.drop (reads.headD 0) : List SampleId) : Multiset SampleId) +
            (((x :: smps : List SampleId) : Multiset SampleId) + R) := by
        rw [← Multiset.coe_add, Multiset.coe_singleton, ← Multiset.cons_coe,
          ← Multiset.singleton_add]
        abel
      dsimp only
      rw [hmove]
      exact hb₁
    · exact hb₁

end

section
variable {l : Loopback} {h : Heap} {smps : List SampleId} {rounds : List (List Nat)} {w : Written}

theorem writeRounds_stop (hne : smps ≠ []) : writeRounds l h smps [] = none := if_neg hne

theorem writeRounds_nil (hw : writeRounds l h [] rounds = some w) : w = ⟨l, h, [], []⟩ := by
  cases rounds with
  | nil => exact (Option.some.inj hw).symm
  | cons reads rounds => exact (Option.some.inj hw).symm

theorem writeRounds_cons {reads : List Nat} (hne : smps ≠ [])
    (hw : writeRounds l h smps (reads :: rounds) = some w) :
    ∃ w', writeRounds (loopbackWrite l h smps reads).loopback (loopbackWrite l h smps reads).heap
        (smps.drop (loopbackWrite l h smps reads).pushed) rounds = some w' ∧
      w = ⟨w'.loopback, w'.heap, smps.take (loopbackWrite l h smps reads).pushed ++ w'.accepted,
        (loopbackWrite l h smps reads).read ++ w'.read⟩ := by
  have hround : Option.map _ _ = some w := (if_neg hne).symm.trans hw
  obtain ⟨w', hw', rfl⟩ := Option.map_eq_some_iff.mp hround
  exact ⟨w', hw', rfl⟩

theorem writeRounds_refcnt (hw : writeRounds l h smps rounds = some w) :
    ∃ lost : List SampleId,
      (∀ s, refcnt w.heap s =
        refcnt h s + w.accepted.count s - w.read.count s + lost.count s) ∧
      (lost = [] ↔ HasRoom l smps (rounds.headD [])) := by
  induction rounds generalizing l h smps w with
  | nil =>
    by_cases hne : smps = []
    · subst hne
      rw [writeRounds_nil hw]
      exact ⟨[], by simp, by simp⟩
    · rw [writeRounds_stop hne] at hw
      cases hw
  | cons reads rounds ih =>
    by_cases hne : smps = []
    · subst hne
      rw [writeRounds_nil hw]
      exact ⟨[], by simp, by simp⟩
    · obtain ⟨w', hw', rfl⟩ := writeRounds_cons hne hw
      obtain ⟨lost, hlost, hiff⟩ := ih hw'
      have hall := pushMany_all_iff l (h.sampleIncrefMany smps) smps reads
      have hle := pushMany_pushed_le l (h.sampleIncrefMany smps) smps reads
      refine ⟨smps.drop (loopbackWrite l h smps reads).pushed ++ lost, ?_, ?_⟩
      · intro s
        have hsplit : smps.count s = (smps.take (loopbackWrite l h smps reads).pushed).count s +
            (smps.drop (loopbackWrite l h smps reads).pushed).count s := by
          rw [← List.count_append, List.take_append_drop]
        have hpush := pushMany_refcnt l (h.sampleIncrefMany smps) smps reads s
        rw [refcnt_increfMany] at hpush
        rw [hlost s, loopbackWrite, hpush]
        simp only [List.count_append]
        unfold loopbackWrite at hsplit
        push_cast
        omega
      · rw [List.append_eq_nil_iff, List.drop_eq_nil_iff, hiff, List.headD_cons, ← hall]
        unfold loopbackWrite
        constructor
        · intro hboth
          omega
        · intro heq
          refine ⟨by omega, ?_⟩
          rw [heq, List.drop_length]
          trivial

theorem writeRounds_balanced (hs : ∀ s ∈ smps, s ∈ R) (hb : Balanced z h ((l.queue : Multiset SampleId) + R))
    (hroom : HasRoom l smps (rounds.headD [])) (hw : writeRounds l h smps rounds = some w) :
    Balanced z w.heap ((w.loopback.queue : Multiset SampleId) + R) := by
  by_cases hne : smps = []
  · subst hne
    rw [writeRounds_nil hw]
    exact hb
  · cases rounds with
    | nil =>
      rw [writeRounds_stop hne] at hw
      cases hw
    | cons reads rounds =>
      obtain ⟨w', hw', rfl⟩ := writeRounds_cons hne hw
      have hpushed : (loopbackWrite l h smps reads).pushed = smps.length :=
        (pushMany_all_iff ..).mpr hroom
      rw [hpushed, List.drop_length] at hw'
      rw [writeRounds_nil hw']
      have hincref := hb.increfMany fun s hs' => Multiset.mem_add.mpr (.inr (hs s hs'))
      rw [add_left_comm] at hincref
      have hpush := pushMany_balanced l _ smps reads hincref
      change Balanced z _ (_ + ((smps.drop (loopbackWrite l h smps reads).pushed : List SampleId) +
        R)) at hpush
      rwa [hpushed, List.drop_length, Multiset.coe_nil, zero_add] at hpush

end

/-! ## `node_write` -/

/-- The reference counts follow what the queue took. Other threads have given back what they read,
and hooks may have kept or given back samples of their own. Once the rest of the queue is read, only
the references are left that were there without the loopback. -/
structure RefsFollow (n : NodeDirection σ) (l : Loopback) (h : Heap) (smps : List SampleId)
    (hooks : HookList σ) (w : Written) : Prop where
  grown : ∀ s, refcnt w.heap s - refcnt h s =
    w.accepted.count s - w.read.count s + (hookRefs hooks s - hookRefs n.hooks s)
  returned : ∀ z R,
    Balanced z h (retainedRefs n.hooks.retained + (smps + ((l.queue : Multiset SampleId) + R))) →
      Balanced z (loopbackDrain w.loopback w.heap w.loopback.queue.length).2
        (retainedRefs hooks.retained + (smps + R))

/-- The node does not take part, or the samples that its hooks let pass all find room in the queue
in the first round. -/
def FitsAtOnce (n : NodeDirection σ) (l : Loopback) (h : Heap) (smps : List SampleId)
    (rounds : List (List Nat)) : Prop :=
  n.running → ∀ hooks h' smps' cnt, n.hooks.hookListProcess h smps = (hooks, h', smps', some cnt) →
    HasRoom l (smps'.take cnt) (rounds.headD [])

section
variable {n : NodeDirection σ} {l : Loopback} {h : Heap} {smps : List SampleId}
  {rounds : List (List Nat)} {hooks : HookList σ} {w : Written}

theorem nodeWrite_cases (hw : nodeWrite n l h smps rounds = some (hooks, w)) :
    (¬ n.running ∧ hooks = n.hooks ∧ w = ⟨l, h, [], []⟩) ∨
      (n.running ∧ ∃ h₁ smps₁ cnt,
        n.hooks.hookListProcess h smps = (hooks, h₁, smps₁, some cnt) ∧
          writeRounds l h₁ (smps₁.take cnt) rounds = some w) := by
  unfold nodeWrite at hw
  split at hw
  · rename_i hstate
    simp only [Option.some.injEq, Prod.mk.injEq] at hw
    exact .inl ⟨not_or.mpr hstate, hw.1.symm, hw.2.symm⟩
  · rename_i hstate
    have hrunning : n.running := by
      unfold NodeDirection.running
      tauto
    refine .inr ⟨hrunning, ?_⟩
    split at hw
    · simp at hw
    · rename_i hooks₁ h₁ smps₁ cnt hp
      simp only [Option.map_eq_some_iff, Prod.mk.injEq] at hw
      obtain ⟨w', hw', rfl, rfl⟩ := hw
      exact ⟨h₁, smps₁, cnt, hp, hw'⟩

theorem drained (hq : Balanced z w.heap ((w.loopback.queue : Multiset SampleId) + R)) :
    Balanced z (loopbackDrain w.loopback w.heap w.loopback.queue.length).2 R := by
  obtain ⟨hb, -⟩ := loopbackDrain_spec w.loopback w.loopback.queue.length hq
  simpa [loopbackDrain] using hb

/-- Each reference that a loopback node takes is one that its queue holds, exactly when the queue
has room for a batch at once. -/
theorem loopback_refs_iff (hw : nodeWrite n l h smps rounds = some (hooks, w)) :
    RefsFollow n l h smps hooks w ↔ FitsAtOnce n l h smps rounds := by
  obtain ⟨hnot, rfl, rfl⟩ | ⟨hrunning, h₁, smps₁, cnt, hp, hw⟩ := nodeWrite_cases hw
  · constructor
    · intro _ hrunning
      exact absurd hrunning hnot
    · intro _
      refine ⟨by simp, ?_⟩
      intro z R hb
      apply drained
      convert hb using 1
      abel
  obtain ⟨lost, hlost, hiff⟩ := writeRounds_refcnt hw
  have hsettles := hookListProcess_settles n.hooks h smps
  rw [hp] at hsettles
  constructor
  · intro hfollow _ hooks' h' smps' cnt' hp'
    rw [hp] at hp'
    cases hp'
    apply hiff.mp
    apply List.eq_nil_iff_forall_not_mem.mpr
    intro s hs
    have hpos : 0 < lost.count s := List.count_pos_iff.mpr hs
    have hgrown := hfollow.grown s
    have := hsettles s
    have := hlost s
    dsimp only at *
    omega
  · intro hfits
    have hroom := hfits hrunning hooks h₁ smps₁ cnt hp
    have hnil := hiff.mpr hroom
    refine ⟨?_, ?_⟩
    · intro s
      have := hsettles s
      have := hlost s
      rw [hnil, List.count_nil] at this
      dsimp only at *
      omega
    · intro z R hb
      have hspec := hookListProcess_spec n.hooks smps hb
      rw [hp] at hspec
      apply drained
      apply writeRounds_balanced _ _ hroom hw
      · intro s hs
        have hmem : s ∈ smps := hspec.perm.mem_iff.mp (List.mem_of_mem_take hs)
        simp [hmem]
      · convert hspec.balanced using 1
        abel

end

/-- The samples 1, 2 and 3 of a pool. The caller of `node_write` holds the first two. -/
def exampleHeap : Heap where
  samples := fun _ => ⟨⟨0, 0, 0, 0, ⟨0, 0⟩, ⟨0, 0⟩, fun _ => 0⟩, 4, 1, some 0⟩
  pools := fun p => if p = 0 then ⟨[1, 2, 3], 4, 4⟩ else ⟨[], 0, 0⟩
  free := fun _ => []

def exampleNode : NodeDirection Unit :=
  ⟨.started, 0, 1, ⟨(), [], fun _ _ _ s => ⟨(), s, .ok, fun _ => .keep⟩, fun _ _ => 0⟩⟩

/-- A queue with two places. -/
def exampleLoopback (queue : List SampleId) : Loopback := { state := .started, queueSize := 2, queue }

theorem loopback_refs_two :
    ∃ r, nodeWrite exampleNode (exampleLoopback []) exampleHeap [1, 2] [[]] = some r ∧
      RefsFollow exampleNode (exampleLoopback []) exampleHeap [1, 2] r.1 r.2 := by
  obtain ⟨⟨hooks, w⟩, hw⟩ :
      ∃ r, nodeWrite exampleNode (exampleLoopback []) exampleHeap [1, 2] [[]] = some r := ⟨_, rfl⟩
  refine ⟨(hooks, w), hw, (loopback_refs_iff hw).mpr ?_⟩
  rintro - hooks h' smps' cnt hp
  cases hp
  simp [HasRoom, exampleLoopback]

/-- One place is taken, by the sample 3. The queue takes the first of two samples, and the second one
once the sample 3 is read. By then it has got a reference in each round. -/
theorem loopback_refs_leak :
    ∃ r, nodeWrite exampleNode (exampleLoopback [3]) exampleHeap [1, 2] [[], [1]] = some r ∧
      r.2.accepted = [1, 2] ∧ r.2.read = [3] ∧ refcnt r.2.heap 2 = refcnt exampleHeap 2 + 2 ∧
      ¬ RefsFollow exampleNode (exampleLoopback [3]) exampleHeap [1, 2] r.1 r.2 := by
  refine ⟨_, rfl, rfl, rfl, rfl, ?_⟩
  intro hfollow
  have := hfollow.grown 2
  revert this
  decide

end VillasNode.LoopbackNode
