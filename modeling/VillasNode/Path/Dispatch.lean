import VillasNode.Path.PollMode

/-!
# Which source `path_run_poll` reads

`path_prepare_poll` puts the descriptors of all sources behind each other, and
`path_run_poll` takes the number of a slot for the index of a source.
-/

namespace VillasNode.Dispatch

open PollMode Fallible

/-! ## The rounds of `path_run_poll` -/

/-- What `poll` finds, and whether the path is still started behind the round. -/
structure Round where
  readable : Nat → Bool
  started : Bool

inductive SlotAction where
  | timeout
  /-- `path_source_read(ps, p, i)`. There is no `ps` behind the end of `p->sources`. -/
  | read (ps : Option PreparedSource) (i : Nat)
deriving DecidableEq

/-- What the loop does at a slot, after it has looked up a source with this index. -/
structure Visit where
  slot : Nat
  lookup : Nat
  action : Option SlotAction
deriving DecidableEq

def visit (env : Env) (p : VPath) (r : Round) (i : Nat) (fd : Int) : Visit :=
  { slot := i, lookup := i
    action :=
      if r.readable i then
        some (if fd = env.timeoutFd then .timeout else .read p.sources[i]? i)
      else none }

def visits (env : Env) (p : VPath) (r : Round) : List Visit := p.pollFds.mapIdx (visit env p r)

/-- The rounds of the thread of a path that is started. -/
def pathRunPoll (env : Env) (p : VPath) : List Round → List (Round × List Visit)
  | [] => []
  | r :: rs => (r, visits env p r) :: if r.started then pathRunPoll env p rs else []

/-! ## Who provides a descriptor -/

def fdsOf (env : Env) (ps : PreparedSource) : List Int := (sourceNode env ps).pollFds.getD []

/-- For each slot the index of the source that has provided its descriptor, from index `k` on. The
slot of the timer has none. -/
def owners (env : Env) (k : Nat) : List PreparedSource → List Nat
  | [] => []
  | ps :: pss => List.replicate (fdsOf env ps).length k ++ owners env (k + 1) pss

/-- In every round of every run, sources are looked up within `p->sources`, and for a readable slot
the source that has provided its descriptor is read, with its index. -/
def ReadsReady (env : Env) (p : VPath) : Prop :=
  ∀ rounds, ∀ x ∈ pathRunPoll env p rounds, ∀ v ∈ x.2,
    v.lookup < p.sources.length ∧
      (x.1.readable v.slot → ∀ k, (owners env 0 p.sources)[v.slot]? = some k →
        v.action = some (.read p.sources[k]? k))

theorem owners_length (env : Env) (k : Nat) (pss : List PreparedSource) :
    (owners env k pss).length = (pss.flatMap (fdsOf env)).length := by
  induction pss generalizing k with
  | nil => rfl
  | cons ps pss ih =>
    rw [owners, List.length_append, List.length_replicate, ih, List.flatMap_cons, List.length_append]

theorem owners_one {env : Env} {pss : List PreparedSource} (k : Nat)
    (hone : ∀ ps ∈ pss, (fdsOf env ps).length = 1) : owners env k pss = List.range' k pss.length := by
  induction pss generalizing k with
  | nil => rfl
  | cons ps pss ih =>
    rw [owners, hone ps List.mem_cons_self, ih _ fun ps' hps' => hone ps' (List.mem_cons_of_mem _ hps'),
      List.length_cons, List.range'_succ]
    rfl

section
variable {α β : Type*} {f : α → List β} {l : List α}

theorem length_le_flatMap (hne : ∀ a ∈ l, f a ≠ []) : l.length ≤ (l.flatMap f).length := by
  induction l with
  | nil => exact le_refl 0
  | cons a l ih =>
    have hpos := List.length_pos_iff.mpr (hne a List.mem_cons_self)
    have hrest := ih fun b hb => hne b (List.mem_cons_of_mem _ hb)
    rw [List.flatMap_cons, List.length_append, List.length_cons]
    omega

theorem length_one_of_flatMap (hne : ∀ a ∈ l, f a ≠ []) (hle : (l.flatMap f).length ≤ l.length) :
    ∀ a ∈ l, (f a).length = 1 := by
  induction l with
  | nil => exact nofun
  | cons a l ih =>
    obtain ⟨hnil, hne'⟩ := List.forall_mem_cons.mp hne
    have hpos := List.length_pos_iff.mpr hnil
    have hrest := length_le_flatMap hne'
    rw [List.flatMap_cons, List.length_append, List.length_cons] at hle
    exact List.forall_mem_cons.mpr ⟨by omega, ih hne' (by omega)⟩

end

/-! ## The array of `path_prepare_poll` -/

section
variable {env : Env} {p p' : VPath}

theorem preparePollFds_spec {pss : List PreparedSource} {fds : List Int}
    (h : preparePollFds env pss = .ok fds) :
    fds = pss.flatMap (fdsOf env) ∧ ∀ ps ∈ pss, fdsOf env ps ≠ [] := by
  induction pss generalizing fds with
  | nil =>
    cases h
    exact ⟨rfl, nofun⟩
  | cons ps pss ih =>
    unfold preparePollFds at h
    simp only [bind_eq_ok, check_eq_ok, decide_eq_true_eq] at h
    obtain ⟨_, ⟨hne, -⟩, rest, hrest, h⟩ := h
    cases h
    obtain ⟨rfl, hall⟩ := ih hrest
    exact ⟨rfl, List.forall_mem_cons.mpr ⟨hne, hall⟩⟩

theorem pathPreparePoll_spec (h : pathPreparePoll env p = .ok p') :
    p'.sources = p.sources ∧ p'.rate = p.rate ∧ (∀ ps ∈ p.sources, fdsOf env ps ≠ []) ∧
      p'.pollFds = p.sources.flatMap (fdsOf env) ++ if 0 < p.rate then [env.timeoutFd] else [] := by
  unfold pathPreparePoll at h
  simp only [bind_eq_ok] at h
  obtain ⟨fds, hfds, h⟩ := h
  obtain ⟨rfl, hne⟩ := preparePollFds_spec hfds
  split at h
  · rename_i hrate
    simp only [bind_eq_ok] at h
    obtain ⟨_, _, h⟩ := h
    cases h
    exact ⟨rfl, rfl, hne, by rw [if_pos hrate]⟩
  · rename_i hrate
    cases h
    exact ⟨rfl, rfl, hne, by rw [if_neg hrate, List.append_nil]⟩

/-! ## The dispatch -/

theorem mem_visits {r : Round} {v : Visit} (hv : v ∈ visits env p r) :
    ∃ i fd, p.pollFds[i]? = some fd ∧ v = visit env p r i fd := by
  obtain ⟨i, hi, rfl⟩ := List.mem_mapIdx.mp hv
  exact ⟨i, _, List.getElem?_eq_getElem hi, rfl⟩

theorem mem_pathRunPoll {rounds : List Round} {x : Round × List Visit}
    (hx : x ∈ pathRunPoll env p rounds) : x.2 = visits env p x.1 := by
  induction rounds with
  | nil => cases hx
  | cons r rs ih =>
    unfold pathRunPoll at hx
    rcases List.mem_cons.mp hx with rfl | hx
    · rfl
    · split at hx
      · exact ih hx
      · cases hx

theorem ReadsReady.slot (h : ReadsReady env p) {i : Nat} {fd : Int} (hi : p.pollFds[i]? = some fd) :
    i < p.sources.length ∧ ∀ k, (owners env 0 p.sources)[i]? = some k →
      fd ≠ env.timeoutFd ∧ i = k := by
  have hmem : visit env p ⟨fun _ => true, false⟩ i fd ∈ visits env p ⟨fun _ => true, false⟩ := by
    obtain ⟨hlt, rfl⟩ := List.getElem?_eq_some_iff.mp hi
    exact List.mem_mapIdx.mpr ⟨i, hlt, rfl⟩
  obtain ⟨hlt, hread⟩ := h [⟨fun _ => true, false⟩] _ List.mem_cons_self _ hmem
  refine ⟨hlt, fun k hk => ?_⟩
  have haction := hread rfl k hk
  unfold visit at haction
  dsimp only at haction
  rw [if_pos rfl] at haction
  split at haction
  · cases haction
  · rename_i hfd
    simp only [Option.some.injEq, SlotAction.read.injEq] at haction
    exact ⟨hfd, haction.2⟩

/-- For every path whose descriptors could be collected: the thread reads the source that is ready,
and looks up no source that is not there, if and only if each source has one descriptor, there is
no timer, and no source gives the descriptor of the timer. -/
theorem reads_ready_iff (hprepare : pathPreparePoll env p = .ok p') :
    ReadsReady env p' ↔ (∀ ps ∈ p.sources, (fdsOf env ps).length = 1) ∧ p.rate ≤ 0 ∧
      ∀ ps ∈ p.sources, env.timeoutFd ∉ fdsOf env ps := by
  obtain ⟨hsources, -, hne, hfds⟩ := pathPreparePoll_spec hprepare
  constructor
  · intro hready
    have hle : p'.pollFds.length ≤ p'.sources.length := by
      by_contra hgt
      have hlt : p'.sources.length < p'.pollFds.length := by omega
      obtain ⟨hbad, -⟩ := hready.slot (List.getElem?_eq_getElem hlt)
      exact lt_irrefl _ hbad
    rw [hfds, hsources, List.length_append] at hle
    have hge := length_le_flatMap hne
    refine ⟨length_one_of_flatMap hne (by omega), ?_, ?_⟩
    · by_contra hrate
      rw [if_pos (not_le.mp hrate), List.length_singleton] at hle
      omega
    · intro ps hps htimer
      have hmem : env.timeoutFd ∈ p.sources.flatMap (fdsOf env) := List.mem_flatMap.mpr ⟨ps, hps, htimer⟩
      obtain ⟨i, hi, hget⟩ := List.getElem_of_mem hmem
      have hslot : p'.pollFds[i]? = some env.timeoutFd := by
        rw [hfds, List.getElem?_append_left hi, List.getElem?_eq_getElem hi, hget]
      have howner : i < (owners env 0 p'.sources).length := by
        rw [owners_length, hsources]
        exact hi
      exact ((hready.slot hslot).2 _ (List.getElem?_eq_getElem howner)).1 rfl
  · rintro ⟨hone, hrate, htimer⟩ rounds x hx v hv
    rw [mem_pathRunPoll hx] at hv
    obtain ⟨i, fd, hi, rfl⟩ := mem_visits hv
    rw [hfds, if_neg (not_lt.mpr hrate), List.append_nil] at hi
    obtain ⟨hlt, hget⟩ := List.getElem?_eq_some_iff.mp hi
    have hlen : (p.sources.flatMap (fdsOf env)).length = p.sources.length := by
      rw [← owners_length env 0, owners_one 0 hone, List.length_range']
    have hfd : fd ≠ env.timeoutFd := by
      rintro rfl
      obtain ⟨ps, hps, hmem⟩ := List.mem_flatMap.mp (hget ▸ List.getElem_mem hlt)
      exact htimer ps hps hmem
    refine ⟨?_, fun hreadable k hk => ?_⟩
    · show i < p'.sources.length
      rw [hsources, ← hlen]
      exact hlt
    · unfold visit at hreadable hk ⊢
      dsimp only at hreadable hk ⊢
      rw [hsources, owners_one 0 hone, List.getElem?_range' (by omega)] at hk
      rw [if_pos hreadable, if_neg hfd]
      have hik : i = k := by simpa using hk
      rw [hik]

end

/-! ## A source with two descriptors -/

def twoSources : List PreparedSource := [⟨0, .master, true, []⟩, ⟨1, .master, true, []⟩]

def sourcesPath (rate : ℚ) : VPath :=
  { state := .checked, mappings := [], destinations := [], maskList := [], sources := twoSources
    mask := ∅, poll := .on, rate, queuelen := 1024, pollFds := [] }

/-- The descriptors that the nodes 0 and 1 give. -/
def descriptorEnv (first second : List Int) : Env :=
  { plainEnv with node := fun n => ⟨true, true, true, some (if n = 0 then first else second)⟩ }

theorem reads_ready_two :
    ∃ p', pathPreparePoll (descriptorEnv [3] [4]) (sourcesPath 0) = .ok p' ∧ p'.pollFds = [3, 4] ∧
      ReadsReady (descriptorEnv [3] [4]) p' := by
  have hprepare : pathPreparePoll (descriptorEnv [3] [4]) (sourcesPath 0) =
      .ok { sourcesPath 0 with pollFds := [3, 4] } := rfl
  refine ⟨_, hprepare, rfl, (reads_ready_iff hprepare).mpr ⟨?_, le_refl _, ?_⟩⟩
  · decide
  · decide

/-- The node 0 gives the descriptors 3 and 4. When 4 is readable the other source is read, and when
the one of the node 1 is readable there is no source at all. -/
theorem reads_other_source :
    ∃ p', pathPreparePoll (descriptorEnv [3, 4] [6]) (sourcesPath 0) = .ok p' ∧
      p'.pollFds = [3, 4, 6] ∧ owners (descriptorEnv [3, 4] [6]) 0 p'.sources = [0, 0, 1] ∧
      visits (descriptorEnv [3, 4] [6]) p' ⟨fun i => 0 < i, true⟩ =
        [⟨0, 0, none⟩, ⟨1, 1, some (.read (some ⟨1, .master, true, []⟩) 1)⟩,
          ⟨2, 2, some (.read none 2)⟩] ∧
      ¬ ReadsReady (descriptorEnv [3, 4] [6]) p' := by
  refine ⟨_, rfl, rfl, rfl, by decide, fun hready => ?_⟩
  obtain ⟨hlt, -⟩ := hready.slot (show _ = some 6 from (rfl : [(3 : Int), 4, 6][2]? = some 6))
  revert hlt
  decide

end VillasNode.Dispatch
