import VillasNode.Hook.Isolation

/-!
# The hooks restart and drop

`lib/hooks/restart.cpp` and `lib/hooks/drop.cpp`, in a list with any other
hooks. Both keep the sample before and look at its sequence number again when
the next one comes. `RestartHook` calls `restart` of every hook of its list.
-/

namespace VillasNode

variable {σ : Type*}

/-! ## Hooks -/

/-- A hook other than the two. -/
structure OtherHook (σ : Type*) where
  /-- Given its state and the sample that it holds on to. -/
  process : σ → Option Payload → Payload → σ × Payload × Reason × Retention
  /-- The flag says if it lets go of its sample. -/
  restart : σ → σ × Bool

inductive HookType (σ : Type*) where
  | restart
  | drop
  | other (o : OtherHook σ)

structure Hook (σ : Type*) where
  type : HookType σ
  priority : Nat
  enabled : Bool
  /-- `getSignals` -/
  signals : σ → Nat

/-- `dist = smp->sequence - (int64_t) prev->sequence`, an `int`. -/
def dropDist (smp prev : BitVec 64) : Int := ((smp - prev).setWidth 32).toInt

/-- `smp->sequence == 0 && prev->sequence != 0 && prev->sequence < UINT64_MAX - 16` -/
def restarts (smp prev : BitVec 64) : Bool :=
  smp == 0 && prev != 0 && decide (prev < BitVec.allOnes 64 - 16)

def Payload.markFirst (smp : Payload) : Payload :=
  { smp with flags := smp.flags ||| SampleFlags.isFirst }

/-- `IS_FIRST` is set. -/
def Payload.first (smp : Payload) : Bool := smp.flags &&& SampleFlags.isFirst != 0

namespace Hooks

/-- The states after `restart` of every hook. -/
def restartStates (hooks : List (Hook σ)) (states : Nat → σ) (j : Nat) : σ :=
  match hooks[j]?.map Hook.type with
  | some (.other o) => (o.restart (states j)).1
  | _ => states j

/-- What `restart` of the hook with index `j` does with the sample that it holds on to. -/
def restartRetention (hooks : List (Hook σ)) (states : Nat → σ) (j : Nat) : Retention :=
  match hooks[j]?.map Hook.type with
  | some .drop => .drop
  | some (.other o) => if (o.restart (states j)).2 then .drop else .keep
  | _ => .keep

/-- `process` of the hook with index `i`. -/
def process (hooks : List (Hook σ)) (i : Nat) (states : Nat → σ) (prevs : List (Option Payload))
    (smp : Payload) : Outcome (Nat → σ) :=
  let prev := prevs[i]?.join
  match hooks[i]?.map Hook.type with
  | none => ⟨states, smp, .ok, fun _ => .keep⟩
  | some .restart =>
    if prev.any fun prev => restarts smp.sequence prev.sequence then
      ⟨restartStates hooks states, smp.markFirst, .ok,
        fun j => if j = i then .take else restartRetention hooks states j⟩
    else ⟨states, smp, .ok, fun j => if j = i then .take else .keep⟩
  | some .drop =>
    if prev.any fun prev => dropDist smp.sequence prev.sequence ≤ 0 then
      ⟨states, smp, .skipSample, fun _ => .keep⟩
    else ⟨states, smp, .ok, fun j => if j = i then .take else .keep⟩
  | some (.other o) =>
    let (state, smp, reason, retention) := o.process (states i) prev smp
    ⟨Function.update states i state, smp, reason, fun j => if j = i then retention else .keep⟩

def signals (hooks : List (Hook σ)) (i : Nat) (states : Nat → σ) : Nat :=
  hooks[i]?.elim 0 fun hook => hook.signals (states i)

/-- The list after `hook_list_start`. -/
def start (hooks : List (Hook σ)) (states : Nat → σ) : HookList (Nat → σ) :=
  { state := states, retained := hooks.map fun _ => none
    process := process hooks, signals := signals hooks }

/-- `hook_list_prepare`: the builtin hooks are added, disabled hooks are removed, and the list is
sorted. `vlist_sort` need not be stable. -/
def Prepared (hooks builtin sorted : List (Hook σ)) : Prop :=
  sorted.Perm ((hooks ++ builtin).filter Hook.enabled) ∧
    sorted.Pairwise fun a b => a.priority ≤ b.priority

end Hooks

/-! The plugins with their priorities. -/

def restartHook (signals : σ → Nat) : Hook σ := ⟨.restart, 1, true, signals⟩

def dropHook (signals : σ → Nat) : Hook σ := ⟨.drop, 3, true, signals⟩

/-- `ShiftSequenceHook`. The offset is an `int`. -/
def shiftSeqHook (offset : BitVec 32) (signals : σ → Nat) : Hook σ :=
  { type := .other
      { process := fun state _ smp =>
          (state, { smp with sequence := smp.sequence + offset.signExtend 64 }, .ok, .keep)
        restart := fun state => (state, false) }
    priority := 99, enabled := true, signals }

/-- `TsHook` -/
def tsHook (signals : σ → Nat) : Hook σ :=
  { type := .other
      { process := fun state _ smp => (state, { smp with origin := smp.received }, .ok, .keep)
        restart := fun state => (state, false) }
    priority := 99, enabled := true, signals }

/-! ## Batches -/

/-- The samples of one call with what `read` of the node has put into them. -/
abbrev Batch := List (SampleId × Payload)

def Heap.deliver (h : Heap) (batch : Batch) : Heap := batch.foldl (fun h s => h.setPayload s.1 s.2) h

def Batch.ids (batch : Batch) : List SampleId := batch.map Prod.fst

theorem deliver_payload_of_notMem {batch : Batch} {s : SampleId} (hs : s ∉ batch.ids) (h : Heap) :
    (h.deliver batch).payload s = h.payload s := by
  induction batch generalizing h with
  | nil => rfl
  | cons x batch ih =>
    unfold Batch.ids at hs
    rw [List.map_cons, List.mem_cons, not_or] at hs
    unfold Heap.deliver
    rw [List.foldl_cons]
    refine (ih hs.2 _).trans ?_
    rw [Heap.setPayload_payload, if_neg hs.1]

theorem deliver_payload {batch : Batch} (hnodup : batch.ids.Nodup) {x : SampleId × Payload}
    (hx : x ∈ batch) (h : Heap) : (h.deliver batch).payload x.1 = x.2 := by
  induction batch generalizing h with
  | nil => simp at hx
  | cons y batch ih =>
    unfold Batch.ids at hnodup
    rw [List.map_cons, List.nodup_cons] at hnodup
    unfold Heap.deliver
    rw [List.foldl_cons]
    rcases List.mem_cons.mp hx with rfl | hx
    · refine (deliver_payload_of_notMem hnodup.1 _).trans ?_
      rw [Heap.setPayload_payload, if_pos rfl]
    · exact ih hnodup.2 hx _

/-- A sample of which nothing but the number matters. -/
def numbered (sequence : BitVec 64) : Payload :=
  { sequence, length := 0, flags := 0, signals := 0, origin := ⟨0, 0⟩, received := ⟨0, 0⟩
    data := fun _ => 0 }

def emptyHeap : Heap :=
  { samples := fun _ => ⟨numbered 0, 0, 1, none⟩, pools := fun _ => ⟨[], 0, 0⟩, free := fun _ => [] }

/-! ## What the hooks hold on to -/

def Retention.after (smp : SampleId) (prev : Option SampleId) : Retention → Option SampleId
  | .keep => prev
  | .take => some smp
  | .drop => none

theorem retain_after (h : Heap) (smp : SampleId) (prev : Option SampleId) (retention : Retention) :
    (h.retain smp prev retention).2 = retention.after smp prev := by
  rcases prev with _ | prev <;> rcases retention with _ | _ | _ <;> rfl

theorem retainAll_getElem? (h : Heap) (smp : SampleId) (retention : Nat → Retention) (i j : Nat)
    (prevs : List (Option SampleId)) :
    (h.retainAll smp retention i prevs).2[j]? =
      prevs[j]?.map fun prev => (retention (i + j)).after smp prev := by
  induction prevs generalizing h i j with
  | nil => rfl
  | cons prev prevs ih =>
    unfold Heap.retainAll
    dsimp only
    cases j with
    | zero => rw [List.getElem?_cons_zero, List.getElem?_cons_zero, retain_after]; rfl
    | succ j => rw [List.getElem?_cons_succ, List.getElem?_cons_succ, ih, Nat.add_right_comm, Nat.add_assoc]

theorem processOne_retained (hs : HookList σ) (h : Heap) (i j : Nat) (smp : SampleId) :
    (hs.processOne h i smp).1.retained[j]? = hs.retained[j]?.map fun prev =>
      ((hs.process i hs.state (hs.retained.map (Option.map h.payload)) (h.payload smp)).retention j).after
        smp prev := by
  unfold HookList.processOne
  dsimp only
  rw [retainAll_getElem?, Nat.zero_add]

end VillasNode
