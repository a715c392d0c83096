import VillasNode.Sample.Model

/-!
# Hook lists

`hook_list_process` of `lib/hook_list.cpp`, over any hooks. A hook changes the
sample it is given in place. It may hold on to one sample (`prev` in the hooks
restart and drop, `last` in stats and ebm) and read it again later. The hook
restart reaches into the other hooks of its list, so the states of a list are
kept together.
-/

namespace VillasNode

inductive Reason where
  | ok
  | error
  | skipSample
  | stopProcessing
deriving DecidableEq

/-- What happens to the sample that a hook holds on to. -/
inductive Retention where
  | keep
  /-- `sample_incref(smp); if (prev) sample_decref(prev); prev = smp;` -/
  | take
  /-- `if (prev) sample_decref(prev); prev = nullptr;` -/
  | drop
deriving DecidableEq

structure Outcome (σ : Type*) where
  state : σ
  payload : Payload
  reason : Reason
  retention : Nat → Retention

structure HookList (σ : Type*) where
  state : σ
  retained : List (Option SampleId)
  /-- `process` of the hook with that index, given what the hooks hold on to. -/
  process : Nat → σ → List (Option Payload) → Payload → Outcome σ
  /-- `getSignals` of the hook with that index. -/
  signals : Nat → σ → Nat

namespace Heap

def retain (h : Heap) (s : SampleId) : Option SampleId → Retention → Heap × Option SampleId
  | prev, .keep => (h, prev)
  | none, .take => (h.sampleIncref s, some s)
  | some prev, .take => ((h.sampleIncref s).sampleDecref prev, some s)
  | none, .drop => (h, none)
  | some prev, .drop => (h.sampleDecref prev, none)

def retainAll (h : Heap) (s : SampleId) (retention : Nat → Retention) :
    Nat → List (Option SampleId) → Heap × List (Option SampleId)
  | _, [] => (h, [])
  | i, prev :: prevs =>
    let (h, prev) := h.retain s prev (retention i)
    let (h, prevs) := h.retainAll s retention (i + 1) prevs
    (h, prev :: prevs)

end Heap

namespace HookList

variable {σ : Type*}

/-- `h->process(smp)` and `smp->signals = h->getSignals()`. -/
def processOne (hs : HookList σ) (h : Heap) (i : Nat) (smp : SampleId) :
    HookList σ × Heap × Reason :=
  let o := hs.process i hs.state (hs.retained.map (Option.map h.payload)) (h.payload smp)
  let (h, retained) := h.retainAll smp o.retention 0 hs.retained
  let h := h.setPayload smp { o.payload with signals := hs.signals i o.state }
  ({ hs with state := o.state, retained }, h, o.reason)

/-- The hooks from index `i` on, `n` of them. -/
def processChain (hs : HookList σ) (h : Heap) (smp : SampleId) :
    Nat → Nat → HookList σ × Heap × Reason
  | _, 0 => (hs, h, .ok)
  | i, n + 1 =>
    match hs.processOne h i smp with
    | (hs, h, .ok) => hs.processChain h smp (i + 1) n
    | r => r

def swap (smps : List SampleId) (i j : Nat) : List SampleId :=
  match smps[i]?, smps[j]? with
  | some x, some y => (smps.set i y).set j x
  | _, _ => smps

/-- The loop over `current`, for `n` more samples. `none` stands for `-1`. -/
def processLoop (hs : HookList σ) (h : Heap) (smps : List SampleId) (current processed : Nat) :
    Nat → HookList σ × Heap × List SampleId × Option Nat
  | 0 => (hs, h, smps, some processed)
  | n + 1 =>
    match smps[current]? with
    | none => (hs, h, smps, some processed)
    | some smp =>
      match hs.processChain h smp 0 hs.retained.length with
      | (hs, h, .error) => (hs, h, smps, none)
      | (hs, h, .skipSample) => hs.processLoop h smps (current + 1) processed n
      | (hs, h, _) => hs.processLoop h (swap smps processed current) (current + 1) (processed + 1) n

/-- `hook_list_process`. The array is handed back as the loop leaves it. -/
def hookListProcess (hs : HookList σ) (h : Heap) (smps : List SampleId) :
    HookList σ × Heap × List SampleId × Option Nat :=
  if hs.retained.length = 0 then (hs, h, smps, some smps.length)
  else hs.processLoop h smps 0 0 smps.length

end HookList

end VillasNode
