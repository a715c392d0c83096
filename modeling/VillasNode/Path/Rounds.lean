import VillasNode.Path.Channels

/-!
# The two loops of a path

`path_run_single` of `lib/path.cpp` is an optimized version of `path_run_poll`
for a path with one source. It leaves the destinations alone after a read that
has enqueued nothing. Both loops do the same as long as this does not leave
samples behind.
-/

namespace VillasNode

variable {σ : Type*} {h h' : Heap} {p p' : Path σ} {pd pd' : PathDestination σ} {i : Nat}
  {rs : List DriverWrite} {given : List (List Payload)} {writes : Nat → List DriverWrite}

/-! ## The rounds -/

/-- A slot of `p->reader.pfds` that `poll` reports. -/
inductive PollSlot where
  | timeout
  | source (i : Nat) (ev : Reading)

/-- What the only source and the drivers of the destinations do in a round. -/
structure ThreadRound where
  ev : Reading
  writes : Nat → List DriverWrite

namespace Path

/-- The loop over the destinations. -/
def writeAll (p : Path σ) (writes : Nat → List DriverWrite) : Option (Path σ) :=
  (List.range p.destinations.length).foldlM (fun p i => p.writeTo i (writes i)) p

/-- The body of the loop over the slots. -/
def visitSlot (p : Path σ) : PollSlot → Option (Path σ)
  | .timeout => some p.timeout
  | .source i ev => (p.pathSourceRead i ev).map Prod.fst

/-- A round of `path_run_poll`, in which `poll` reports these slots. -/
def pollRound (p : Path σ) (slots : List PollSlot) (writes : Nat → List DriverWrite) : Option (Path σ) :=
  if p.state = .started then (slots.foldlM visitSlot p).bind fun p => p.writeAll writes else some p

/-- A round of `path_run_single`. -/
def singleRound (p : Path σ) (r : ThreadRound) : Option (Path σ) :=
  if p.state = .started then
    (p.pathSourceRead 0 r.ev).bind fun (p, ret) => if ret ≤ 0 then some p else p.writeAll r.writes
  else some p

/-- A round of `path_run_poll` for a path with one source and no timer. -/
def sourceRound (p : Path σ) (r : ThreadRound) : Option (Path σ) :=
  p.pollRound [.source 0 r.ev] r.writes

end Path

/-! ## One destination -/

/-- `queue_pull_many` gives no sample. -/
def PathDestination.Idle (pd : PathDestination σ) : Prop := pd.queue.take pd.node.vectorize = []

theorem write_idle (h : Heap) (rs : List DriverWrite) (hidle : pd.Idle) :
    pathDestinationWrite pd h rs = some (pd, h, []) := by
  unfold PathDestination.Idle at hidle
  unfold pathDestinationWrite destinationLoop
  dsimp only
  rw [if_pos hidle]

theorem destinationLoop_length (n : Nat) (hw : destinationLoop pd h rs n = some (pd', h', given)) :
    pd'.queue.length ≤ pd.queue.length := by
  induction n generalizing pd h rs given with
  | zero =>
    cases hw
    exact le_refl _
  | succ n ih =>
    have hdrop : (pd.queue.drop pd.node.vectorize).length ≤ pd.queue.length := by simp
    obtain ⟨-, rfl, -, -⟩ | ⟨-, -, w, -, hround⟩ := destinationLoop_cases hw
    · exact le_refl _
    obtain ⟨-, -, -, rfl⟩ | ⟨-, rest, -, hrest⟩ := hround
    · exact hdrop
    · exact (ih hrest).trans hdrop

theorem write_busy (hbusy : ¬ pd.Idle) (hw : pathDestinationWrite pd h rs = some (pd', h', given)) :
    pd'.queue.length < pd.queue.length := by
  unfold PathDestination.Idle at hbusy
  have hdrop : (pd.queue.drop pd.node.vectorize).length < pd.queue.length := by
    rw [List.take_eq_nil_iff, not_or] at hbusy
    have := List.length_pos_iff.mpr hbusy.2
    rw [List.length_drop]
    omega
  obtain ⟨hidle, -⟩ | ⟨-, -, w, -, hround⟩ := destinationLoop_cases hw
  · exact absurd hidle hbusy
  obtain ⟨-, -, -, rfl⟩ | ⟨-, rest, -, hrest⟩ := hround
  · exact hdrop
  · exact (destinationLoop_length _ hrest).trans_lt hdrop

/-- The node runs or ignores what it is given. -/
def NodeDirection.Writable (n : NodeDirection σ) : Prop :=
  n.running ∨ n.state = .paused ∨ n.state = .pendingConnect

theorem nodeWrite_sent {n : NodeDirection σ} {smps : List SampleId} {w : Written σ} (hn : n.Writable)
    (hrs : rs.all DriverWrite.isSent) (hw : nodeWrite n h smps rs = some w) :
    w.sent ≠ none ∧ w.results.all DriverWrite.isSent ∧ w.node.state = n.state ∧
      w.node.vectorize = n.vectorize := by
  unfold nodeWrite at hw
  split at hw
  · cases hw
    exact ⟨by simp, hrs, rfl, rfl⟩
  split at hw
  · rename_i hidle hstopped
    unfold NodeDirection.Writable NodeDirection.running at hn
    tauto
  split at hw
  · simp at hw
  split at hw
  · cases hw
    exact ⟨by simp, hrs, rfl, rfl⟩
  · obtain ⟨⟨given, sent, rest⟩, hloop, rfl⟩ := Option.map_eq_some_iff.mp hw
    obtain ⟨used, k, rfl, -, -, -, hsent⟩ := writeLoop_accepted hloop
    rw [List.all_append, Bool.and_eq_true] at hrs
    exact ⟨fun hnone => hsent.mp hnone hrs.1, hrs.2, rfl, rfl⟩

theorem destinationLoop_drains (n : Nat) (hn : pd.node.Writable) (hrs : rs.all DriverWrite.isSent)
    (hfuel : pd.queue.length < n) (hw : destinationLoop pd h rs n = some (pd', h', given)) : pd'.Idle := by
  induction n generalizing pd h rs given with
  | zero => exact absurd hfuel (Nat.not_lt_zero _)
  | succ n ih =>
    obtain ⟨hidle, rfl, -, -⟩ | ⟨hbusy, -, w, hnode, hround⟩ := destinationLoop_cases hw
    · exact hidle
    obtain ⟨hsent, hrest, hstate, hvectorize⟩ := nodeWrite_sent hn hrs hnode
    obtain ⟨hnone, -⟩ | ⟨-, rest, -, hloop⟩ := hround
    · exact absurd hnone hsent
    · refine ih ?_ hrest ?_ hloop
      · unfold NodeDirection.Writable NodeDirection.running at hn ⊢
        rw [hstate]
        exact hn
      · rw [Ne, List.take_eq_nil_iff, not_or] at hbusy
        have := List.length_pos_iff.mpr hbusy.2
        dsimp only
        rw [List.length_drop]
        omega

/-! ## All destinations -/

/-- There is nothing to write. -/
def Path.Idle (p : Path σ) : Prop := ∀ pd ∈ p.destinations, pd.Idle

theorem writeTo_idle (rs : List DriverWrite) (hget : p.destinations[i]? = some pd) (hidle : pd.Idle) :
    p.writeTo i rs = some p := by
  have hset : p.destinations.set i pd = p.destinations := by
    obtain ⟨hlt, rfl⟩ := List.getElem?_eq_some_iff.mp hget
    exact List.set_getElem_self hlt
  unfold Path.writeTo
  rw [hget]
  dsimp only
  rw [write_idle p.heap rs hidle, Option.map_some, hset]

theorem writeTo_destination {j : Nat} (hget : p.destinations[i]? = some pd)
    (hw : p.writeTo j rs = some p') :
    j ≠ i ∧ p'.destinations[i]? = some pd ∨
      j = i ∧ ∃ pd' h' given, pathDestinationWrite pd p.heap rs = some (pd', h', given) ∧
        p'.destinations[i]? = some pd' := by
  unfold Path.writeTo at hw
  split at hw
  · simp at hw
  rename_i pd₁ hget₁
  obtain ⟨⟨pd₂, heap, given⟩, hwrite, rfl⟩ := Option.map_eq_some_iff.mp hw
  by_cases hij : j = i
  · subst hij
    cases hget.symm.trans hget₁
    exact .inr ⟨rfl, pd₂, heap, given, hwrite, List.getElem?_set_self (List.getElem?_eq_some_iff.mp hget).1⟩
  · refine .inl ⟨hij, ?_⟩
    dsimp only
    rw [List.getElem?_set_ne hij]
    exact hget

theorem writes_length (l : List Nat) (hget : p.destinations[i]? = some pd)
    (hw : l.foldlM (fun p j => p.writeTo j (writes j)) p = some p') :
    ∃ pd', p'.destinations[i]? = some pd' ∧ pd'.queue.length ≤ pd.queue.length ∧
      (i ∈ l → ¬ pd.Idle → pd'.queue.length < pd.queue.length) := by
  induction l generalizing p pd with
  | nil =>
    cases hw
    exact ⟨pd, hget, le_refl _, by simp⟩
  | cons j l ih =>
    rw [List.foldlM_cons] at hw
    obtain ⟨p₁, hone, hrest⟩ := Option.bind_eq_some_iff.mp hw
    rcases writeTo_destination hget hone with ⟨hne, hget₁⟩ | ⟨rfl, pd₁, h₁, given₁, hwrite, hget₁⟩
    · obtain ⟨pd', hget', hle, hlt⟩ := ih hget₁ hrest
      refine ⟨pd', hget', hle, fun hmem => hlt ?_⟩
      exact (List.mem_cons.mp hmem).resolve_left (Ne.symm hne)
    · obtain ⟨pd', hget', hle, -⟩ := ih hget₁ hrest
      exact ⟨pd', hget', hle.trans (destinationLoop_length _ hwrite),
        fun _ hbusy => hle.trans_lt (write_busy hbusy hwrite)⟩

theorem writes_idle (l : List Nat) (hget : p.destinations[i]? = some pd) (hidle : pd.Idle)
    (hw : l.foldlM (fun p j => p.writeTo j (writes j)) p = some p') : p'.destinations[i]? = some pd := by
  induction l generalizing p with
  | nil =>
    cases hw
    exact hget
  | cons j l ih =>
    rw [List.foldlM_cons] at hw
    obtain ⟨p₁, hone, hrest⟩ := Option.bind_eq_some_iff.mp hw
    refine ih ?_ hrest
    by_cases hji : j = i
    · subst hji
      rw [writeTo_idle _ hget hidle] at hone
      cases hone
      exact hget
    · rcases writeTo_destination hget hone with ⟨-, hget₁⟩ | ⟨heq, -⟩
      · exact hget₁
      · exact absurd heq hji

theorem writes_drain (l : List Nat) (hget : p.destinations[i]? = some pd) (hn : pd.node.Writable)
    (hrs : (writes i).all DriverWrite.isSent) (hmem : i ∈ l)
    (hw : l.foldlM (fun p j => p.writeTo j (writes j)) p = some p') :
    ∃ pd', p'.destinations[i]? = some pd' ∧ pd'.Idle := by
  induction l generalizing p with
  | nil => simp at hmem
  | cons j l ih =>
    rw [List.foldlM_cons] at hw
    obtain ⟨p₁, hone, hrest⟩ := Option.bind_eq_some_iff.mp hw
    rcases writeTo_destination hget hone with ⟨hne, hget₁⟩ | ⟨rfl, pd₁, h₁, given₁, hwrite, hget₁⟩
    · exact ih hget₁ ((List.mem_cons.mp hmem).resolve_left (Ne.symm hne)) hrest
    · have hidle : pd₁.Idle := destinationLoop_drains _ hn hrs (Nat.lt_succ_self _) hwrite
      exact ⟨pd₁, writes_idle l hget₁ hidle hrest, hidle⟩

theorem writes_count (l : List Nat) (hw : l.foldlM (fun p j => p.writeTo j (writes j)) p = some p') :
    p'.destinations.length = p.destinations.length := by
  induction l generalizing p with
  | nil =>
    cases hw
    rfl
  | cons j l ih =>
    rw [List.foldlM_cons] at hw
    obtain ⟨p₁, hone, hrest⟩ := Option.bind_eq_some_iff.mp hw
    rw [ih hrest]
    unfold Path.writeTo at hone
    split at hone
    · simp at hone
    · obtain ⟨w, -, rfl⟩ := Option.map_eq_some_iff.mp hone
      exact List.length_set

theorem writeAll_eq_self_iff : p.writeAll writes = some p ↔ p.Idle := by
  constructor
  · intro hw pd hpd
    obtain ⟨i, hget⟩ := List.mem_iff_getElem?.mp hpd
    have hlt : i < p.destinations.length := (List.getElem?_eq_some_iff.mp hget).1
    obtain ⟨pd', hget', -, hless⟩ := writes_length _ hget hw
    cases hget.symm.trans hget'
    by_contra hbusy
    exact lt_irrefl _ (hless (List.mem_range.mpr hlt) hbusy)
  · intro hidle
    unfold Path.writeAll
    suffices hall : ∀ l : List Nat, (∀ i ∈ l, i < p.destinations.length) →
        l.foldlM (fun p j => p.writeTo j (writes j)) p = some p from
      hall _ fun i hi => List.mem_range.mp hi
    intro l hl
    induction l with
    | nil => rfl
    | cons j l ih =>
      have hlt := hl j List.mem_cons_self
      rw [List.foldlM_cons, writeTo_idle _ (List.getElem?_eq_getElem hlt) (hidle _ (List.getElem_mem hlt))]
      exact ih fun i hi => hl i (List.mem_cons_of_mem j hi)

/-! ## A read that enqueues nothing -/

theorem enqueueAll_nil (h : Heap) (pds : List (PathDestination σ)) : (enqueueAll [] h pds).2 = pds := by
  induction pds generalizing h with
  | nil => rfl
  | cons pd pds ih =>
    unfold enqueueAll
    dsimp only
    rw [ih]
    unfold PathDestination.push
    rw [List.take_nil, List.append_nil]

theorem enqueueAll_nodes (clones : List SampleId) (h : Heap) (pds : List (PathDestination σ)) :
    (enqueueAll clones h pds).2.map PathDestination.node = pds.map PathDestination.node := by
  induction pds generalizing h with
  | nil => rfl
  | cons pd pds ih =>
    unfold enqueueAll
    dsimp only
    rw [List.map_cons, List.map_cons, ih]
    rfl

/-- The queues of the destinations before and after a call that gives `ret`. -/
def Enqueued (p p' : Path σ) (ret : Int) : Prop :=
  ∃ h smps, p'.destinations = (pathDestinationEnqueue h p.destinations smps).2 ∧ (ret ≤ 0 → smps = [])

theorem Enqueued.same (ret : Int) (heq : p'.destinations = p.destinations) : Enqueued p p' ret :=
  ⟨p.heap, [], heq.trans (enqueueAll_nil _ _).symm, fun _ => rfl⟩

theorem Enqueued.silent {ret : Int} (he : Enqueued p p' ret) (hret : ret ≤ 0) :
    p'.destinations = p.destinations := by
  obtain ⟨h, smps, hdestinations, hnothing⟩ := he
  rw [hdestinations, hnothing hret]
  exact enqueueAll_nil _ _

theorem Enqueued.nodes {ret : Int} (he : Enqueued p p' ret) :
    p'.destinations.map PathDestination.node = p.destinations.map PathDestination.node := by
  obtain ⟨h, smps, hdestinations, -⟩ := he
  rw [hdestinations]
  exact enqueueAll_nodes _ _ _

theorem enqueue_enqueued {muxed : List SampleId} {toenqueue : Option Nat} {ret : Int}
    (he : p.enqueue i muxed toenqueue = some (p', ret)) : Enqueued p p' ret := by
  obtain ⟨-, cnt, -, rfl, rfl⟩ | ⟨-, -, rfl⟩ := Path.enqueue_cases he
  · refine ⟨p.heap, muxed.take cnt, rfl, fun hret => ?_⟩
    have hzero : cnt = 0 := by omega
    rw [hzero, List.take_zero]
  · exact .same _ rfl

theorem read_enqueued {ev : Reading} {ret : Int} (hread : p.pathSourceRead i ev = some (p', ret)) :
    Enqueued p p' ret := by
  obtain ⟨ps, node, heap, smps', recv, hget, hnode, ⟨hpos, hd⟩ | ⟨hpos, state, rfl, -⟩⟩ :=
    Path.pathSourceRead_cases hread
  · obtain ⟨secondaries, heap', hforward, -, hmux⟩ := Path.deliver_cases hd
    unfold Path.muxAndFinish at hmux
    split at hmux
    rename_i p₁ muxed ok hr
    have hdestinations : p₁.destinations = p.destinations :=
      (congrArg (fun r => r.1.destinations) hr).symm
    split at hmux
    · obtain ⟨p₃, he, rfl⟩ := Path.finish_cases rfl hmux
      have he := enqueue_enqueued he
      unfold Enqueued at he ⊢
      rw [← hdestinations]
      exact he
    · cases hmux
      exact .same _ hdestinations
  · exact .same _ rfl

/-! ## The loops -/

/-- A read that enqueues nothing finds nothing to write either. -/
def Path.Quiet (p : Path σ) (r : ThreadRound) : Prop :=
  p.state = .started → ∀ p' ret, p.pathSourceRead 0 r.ev = some (p', ret) → ret ≤ 0 → p.Idle

theorem sourceRound_started (r : ThreadRound) (hstate : p.state = .started) :
    p.sourceRound r = (p.pathSourceRead 0 r.ev).bind fun x => x.1.writeAll r.writes := by
  have hvisit : p.visitSlot (.source 0 r.ev) = (p.pathSourceRead 0 r.ev).map Prod.fst := rfl
  unfold Path.sourceRound Path.pollRound
  rw [if_pos hstate, List.foldlM_cons, hvisit]
  cases p.pathSourceRead 0 r.ev with
  | none => rfl
  | some x => rfl

theorem singleRound_eq_iff (r : ThreadRound) : p.singleRound r = p.sourceRound r ↔ p.Quiet r := by
  unfold Path.Quiet
  by_cases hstate : p.state = .started
  · rw [sourceRound_started r hstate]
    unfold Path.singleRound
    rw [if_pos hstate]
    cases hread : p.pathSourceRead 0 r.ev with
    | none => simp
    | some x =>
      obtain ⟨p₁, ret⟩ := x
      rw [Option.bind_some, Option.bind_some]
      dsimp only
      split
      · rename_i hret
        have hidle : p₁.Idle ↔ p.Idle := by
          unfold Path.Idle
          rw [(read_enqueued hread).silent hret]
        rw [eq_comm, writeAll_eq_self_iff, hidle]
        constructor
        · intro hall _ p' ret' _ _
          exact hall
        · exact fun hquiet => hquiet hstate _ _ rfl hret
      · rename_i hret
        refine iff_of_true rfl fun _ p' ret' heq hret' => ?_
        cases heq
        exact absurd hret' hret
  · unfold Path.singleRound Path.sourceRound Path.pollRound
    rw [if_neg hstate, if_neg hstate]
    exact iff_of_true rfl fun hstarted => absurd hstarted hstate

/-- Both loops take a path through the same states if and only if no read that enqueues nothing
finds samples in the queue of a destination. -/
theorem single_poll_agree_iff (p : Path σ) (rounds : List ThreadRound) :
    (∀ front, front <+: rounds →
        Runs.run Path.singleRound p front = Runs.run Path.sourceRound p front) ↔
      Runs.Along Path.singleRound Path.Quiet p rounds :=
  Runs.run_prefixes_eq_iff fun _ r => singleRound_eq_iff r

/-- Every destination can be written, and no call of its driver fails. -/
def Path.Served (p : Path σ) (r : ThreadRound) : Prop :=
  ∀ i (hlt : i < p.destinations.length),
    (p.destinations.get ⟨i, hlt⟩).node.Writable ∧ (r.writes i).all DriverWrite.isSent

theorem singleRound_idle {r : ThreadRound} (hidle : p.Idle) (hserved : p.Served r)
    (hround : p.singleRound r = some p') : p'.Idle := by
  unfold Path.singleRound at hround
  split at hround
  · obtain ⟨⟨p₁, ret⟩, hread, hrest⟩ := Option.bind_eq_some_iff.mp hround
    have he := read_enqueued hread
    dsimp only at hrest
    split at hrest
    · rename_i hret
      cases hrest
      unfold Path.Idle
      rw [he.silent hret]
      exact hidle
    · intro pd' hpd'
      obtain ⟨i, hget'⟩ := List.mem_iff_getElem?.mp hpd'
      have hlt : i < p₁.destinations.length := by
        rw [← writes_count _ hrest]
        exact (List.getElem?_eq_some_iff.mp hget').1
      have hlt₀ : i < p.destinations.length := by
        have hlength := congrArg List.length he.nodes
        rw [List.length_map, List.length_map] at hlength
        omega
      obtain ⟨hn, hrs⟩ := hserved i hlt₀
      have hnode : p₁.destinations[i].node = (p.destinations.get ⟨i, hlt₀⟩).node := by
        have hmap := congrArg (fun l => l[i]?) he.nodes
        simpa [hlt, hlt₀] using hmap
      rw [← hnode] at hn
      obtain ⟨pd₂, hget₂, hidle₂⟩ := writes_drain _ (List.getElem?_eq_getElem hlt) hn hrs
        (List.mem_range.mpr hlt) hrest
      cases hget'.symm.trans hget₂
      exact hidle₂
  · cases hround
    exact hidle

/-- As long as no destination fails, the optimized loop is the general one. -/
theorem single_eq_poll {rounds : List ThreadRound} (hidle : p.Idle)
    (hserved : Runs.Along Path.singleRound Path.Served p rounds) :
    Runs.run Path.singleRound p rounds = Runs.run Path.sourceRound p rounds := by
  have hquiet : Runs.Along Path.singleRound Path.Quiet p rounds :=
    hserved.invariant_imp (fun _ _ hidle _ _ _ _ _ _ => hidle)
      (fun _ _ _ hidle hserved hround => singleRound_idle hidle hserved hround) hidle
  exact Runs.run_prefixes_eq_iff (fun _ r => singleRound_eq_iff r) |>.mpr hquiet rounds (List.prefix_refl _)

instance (n : NodeDirection σ) : Decidable n.Writable :=
  inferInstanceAs (Decidable ((_ ∨ _) ∨ _ ∨ _))

instance (p : Path σ) (r : ThreadRound) : Decidable (p.Served r) :=
  inferInstanceAs (Decidable (∀ i (_ : i < p.destinations.length), _))

def exampleRounds : List ThreadRound :=
  [⟨readingOf (exampleSample 7), fun _ => [.sent 1]⟩,
    ⟨{ results := [.fail 1], stats := fun _ _ => 0, drains := fun _ => [] }, fun _ => []⟩]

theorem single_eq_poll_example :
    ∃ p', Runs.run Path.singleRound (examplePath .ok) exampleRounds = some p' ∧
      Runs.run Path.sourceRound (examplePath .ok) exampleRounds = some p' := by
  have hidle : (examplePath .ok).Idle := by
    intro pd hpd
    cases List.mem_singleton.mp hpd
    exact List.take_nil
  obtain ⟨p', hrun⟩ : ∃ p', Runs.run Path.singleRound (examplePath .ok) exampleRounds = some p' :=
    ⟨_, rfl⟩
  exact ⟨p', hrun, (single_eq_poll hidle (by decide)).symm.trans hrun⟩

end VillasNode
