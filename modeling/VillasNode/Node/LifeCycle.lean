import VillasNode.Lib.Runs
import VillasNode.Path.Model

/-!
# The life cycle of a node

`node_start`, `node_stop`, `node_pause`, `node_resume`, `node_restart` and
`node_destroy` of `lib/node.cpp` with the two directions of
`lib/node_direction.cpp`, over any driver. A call gives `none` when one of its
assertions fails.
-/

namespace VillasNode.LifeCycle

/-- The callbacks that a `struct vnode_type` has. -/
structure NodeType where
  start : Bool
  stop : Bool
  pause : Bool
  resume : Bool
  restart : Bool
  destroy : Bool

/-- `node_type(n)->cb ? node_type(n)->cb(n) : 0` -/
def callback (registered : Bool) (ret : Int) : Int := if registered then ret else 0

/-- The last three fields are not in the code. They say that `node_start` has returned 0, that since
then no `node_stop` has, and that the stop callback, if there is one, was run after the last
successful start. -/
structure Node where
  state : State
  typeState : State
  inState : State
  outState : State
  wasStarted : Bool
  live : Bool
  driverStopped : Bool
deriving DecidableEq

/-! ## Directions -/

def nodeDirectionStart (state : State) : Option State :=
  if state = .prepared then some .started else none

def nodeDirectionStop (state : State) : Option State :=
  if state = .started then some .stopped else none

def nodeDirectionDestroy (state : State) : Option State :=
  if state ≠ .destroyed ∧ state ≠ .started then some .destroyed else none

/-! ## Nodes -/

/-- `ret` is the result of the start callback. `marked` says that the mark for outgoing packets was
set on all sockets, if there is one. Otherwise the function throws, which is the result `none`. -/
def nodeStart (vt : NodeType) (n : Node) (ret : Int) (marked : Bool) : Option (Node × Option Int) :=
  if n.state = .prepared ∧ n.typeState = .started then
    (nodeDirectionStart n.inState).bind fun inState =>
    (nodeDirectionStart n.outState).map fun outState =>
      let n := { n with inState, outState }
      if callback vt.start ret ≠ 0 then (n, some (callback vt.start ret))
      else
        let n := { n with driverStopped := false }
        if marked then ({ n with state := .started, wasStarted := true, live := true }, some 0)
        else (n, none)
  else none

/-- The states in which `node_stop` does something. -/
def State.stoppable (s : State) : Prop :=
  s = .stopping ∨ s = .started ∨ s = .connected ∨ s = .pendingConnect

instance (s : State) : Decidable (State.stoppable s) := inferInstanceAs (Decidable (_ ∨ _))

def nodeStop (vt : NodeType) (n : Node) (ret : Int) : Option (Node × Int) :=
  if State.stoppable n.state then
    (nodeDirectionStop n.inState).bind fun inState =>
    (nodeDirectionStop n.outState).map fun outState =>
      let n := { n with inState, outState, driverStopped := true }
      if callback vt.stop ret = 0 then ({ n with state := .stopped, live := false }, 0)
      else (n, callback vt.stop ret)
  else some ({ n with live := false }, 0)

def nodePause (vt : NodeType) (n : Node) (ret : Int) : Node × Int :=
  if n.state ≠ .started then (n, -1)
  else if callback vt.pause ret = 0 then ({ n with state := .paused }, 0)
  else (n, callback vt.pause ret)

def nodeResume (vt : NodeType) (n : Node) (ret : Int) : Node × Int :=
  if n.state ≠ .paused then (n, -1)
  else if callback vt.resume ret = 0 then ({ n with state := .started }, 0)
  else (n, callback vt.resume ret)

/-- The result of the restart callback is not looked at. -/
def nodeRestart (vt : NodeType) (n : Node) (stopRet startRet : Int) : Node × Int :=
  if n.state ≠ .started then (n, -1)
  else if vt.restart then (n, 0)
  else
    let n := { n with driverStopped := true }
    if callback vt.stop stopRet ≠ 0 then (n, callback vt.stop stopRet)
    else if callback vt.start startRet ≠ 0 then (n, callback vt.start startRet)
    else ({ n with driverStopped := false }, 0)

def nodeDestroy (vt : NodeType) (n : Node) (ret : Int) : Option (Node × Int) :=
  if n.state ≠ .destroyed ∧ n.state ≠ .started then
    (nodeDirectionDestroy n.inState).bind fun inState =>
    (nodeDirectionDestroy n.outState).map fun outState =>
      let n := { n with inState, outState }
      if callback vt.destroy ret ≠ 0 then (n, callback vt.destroy ret)
      else ({ n with state := .destroyed }, 0)
  else none

/-! ## Runs -/

inductive Op where
  | start (ret : Int) (marked : Bool)
  | stop (ret : Int)
  | pause (ret : Int)
  | resume (ret : Int)
  | restart (stopRet startRet : Int)
  /-- A driver sets `n->state` while the node runs: at the end of a file, when a peer connects. -/
  | driver (state : State)
  | destroy (ret : Int)
deriving DecidableEq

def driverSets (n : Node) (state : State) : Node :=
  if (State.stoppable n.state ∨ n.state = .paused) ∧ State.stoppable state then { n with state }
  else n

def step (vt : NodeType) (n : Node) : Op → Option Node
  | .start ret marked => (nodeStart vt n ret marked).map Prod.fst
  | .stop ret => (nodeStop vt n ret).map Prod.fst
  | .pause ret => some (nodePause vt n ret).1
  | .resume ret => some (nodeResume vt n ret).1
  | .restart stopRet startRet => some (nodeRestart vt n stopRet startRet).1
  | .driver state => some (driverSets n state)
  | .destroy ret => (nodeDestroy vt n ret).map Prod.fst

/-- A node as `node_prepare` leaves it, of a node type that was started. -/
structure Prepared (n : Node) : Prop where
  state : n.state = .prepared
  typeState : n.typeState = .started
  inState : n.inState = .prepared
  outState : n.outState = .prepared
  wasStarted : n.wasStarted = false
  live : n.live = false

/-- The calls between `node_start` and the last `node_stop`. -/
def Op.between : Op → Bool
  | .start _ _ | .destroy _ => false
  | _ => true

/-- A `node_stop` that returns 0 has run the stop callback of a node that had been started. -/
def StopsDriver (vt : NodeType) (n : Node) : Op → Prop
  | .stop ret => ∀ n', nodeStop vt n ret = some (n', 0) → n'.wasStarted → n'.driverStopped
  | _ => True

/-- No assertion fails in the call, and after it the directions are started exactly while the node
is. -/
def Meets (vt : NodeType) (n : Node) (op : Op) : Prop :=
  (∃ n', step vt n op = some n' ∧ (n'.inState = .started ↔ n'.live) ∧
    (n'.outState = .started ↔ n'.live)) ∧ StopsDriver vt n op

/-- The callbacks for start and stop succeed, and a paused node is resumed before it is stopped. -/
def Orderly (vt : NodeType) (n : Node) : Op → Prop
  | .start ret marked => callback vt.start ret = 0 ∧ marked
  | .stop ret => n.state ≠ .paused ∧ (State.stoppable n.state → callback vt.stop ret = 0)
  | _ => True

/-- What a node looks like between `node_start` and `node_stop`, -/
structure Running (n : Node) : Prop where
  state : State.stoppable n.state ∨ n.state = .paused
  inState : n.inState = .started
  outState : n.outState = .started
  live : n.live
  wasStarted : n.wasStarted

/-- and after it. -/
structure Stopped (n : Node) : Prop where
  state : n.state = .stopped
  inState : n.inState = .stopped
  outState : n.outState = .stopped
  live : n.live = false
  driverStopped : n.driverStopped

/-! ## Each call -/

section
variable {vt : NodeType} {n n' : Node} {op : Op} {ret : Int}

theorem Running.follows (h : Running n) :
    (n.inState = .started ↔ n.live) ∧ (n.outState = .started ↔ n.live) := by
  simp [h.inState, h.outState, h.live]

theorem Stopped.follows (h : Stopped n) :
    (n.inState = .started ↔ n.live) ∧ (n.outState = .started ↔ n.live) := by
  simp [h.inState, h.outState, h.live]

theorem Stopped.not_stoppable (h : Stopped n) : ¬ State.stoppable n.state := by
  simp [State.stoppable, h.state]

theorem nodePause_running (h : Running n) : Running (nodePause vt n ret).1 := by
  unfold nodePause
  split
  · exact h
  split
  · exact { h with state := .inr rfl }
  · exact h

theorem nodeResume_running (h : Running n) : Running (nodeResume vt n ret).1 := by
  unfold nodeResume
  split
  · exact h
  split
  · exact { h with state := .inl (.inr (.inl rfl)) }
  · exact h

theorem nodeRestart_running {stopRet startRet : Int} (h : Running n) :
    Running (nodeRestart vt n stopRet startRet).1 := by
  unfold nodeRestart
  split
  · exact h
  split
  · exact h
  dsimp only
  split
  · exact { h with }
  split
  · exact { h with }
  · exact { h with }

theorem driverSets_running {state : State} (h : Running n) : Running (driverSets n state) := by
  unfold driverSets
  split
  · next hs => exact { h with state := .inl hs.2 }
  · exact h

theorem step_running (vt : NodeType) (h : Running n) (hop : op.between) (hne : ¬ ∃ ret, op = .stop ret) :
    ∃ n', step vt n op = some n' ∧ Running n' := by
  cases op with
  | start ret marked => simp [Op.between] at hop
  | destroy ret => simp [Op.between] at hop
  | stop ret => simp at hne
  | pause ret => exact ⟨_, rfl, nodePause_running h⟩
  | resume ret => exact ⟨_, rfl, nodeResume_running h⟩
  | restart stopRet startRet => exact ⟨_, rfl, nodeRestart_running h⟩
  | driver state => exact ⟨_, rfl, driverSets_running h⟩

theorem nodeStop_stopped (h : Stopped n) : nodeStop vt n ret = some (n, 0) := by
  have hlive : { n with live := false } = n := by
    rw [← h.live]
  rw [nodeStop, if_neg h.not_stoppable, hlive]

theorem step_stopped (h : Stopped n) (hop : op.between) : step vt n op = some n := by
  have hpaused : n.state ≠ .paused := by simp [h.state]
  have hstarted : n.state ≠ .started := by simp [h.state]
  cases op with
  | start ret marked => simp [Op.between] at hop
  | destroy ret => simp [Op.between] at hop
  | stop ret => simp [step, nodeStop_stopped h]
  | pause ret => simp [step, nodePause, hstarted]
  | resume ret => simp [step, nodeResume, hpaused]
  | restart stopRet startRet => simp [step, nodeRestart, hstarted]
  | driver state => simp [step, driverSets, h.not_stoppable, hpaused]

theorem nodeStop_running (h : Running n) (hs : State.stoppable n.state) :
    nodeStop vt n ret =
      if callback vt.stop ret = 0 then
        some (⟨.stopped, n.typeState, .stopped, .stopped, n.wasStarted, false, true⟩, 0)
      else
        some (⟨n.state, n.typeState, .stopped, .stopped, n.wasStarted, n.live, true⟩,
          callback vt.stop ret) := by
  simp only [nodeStop, if_pos hs, nodeDirectionStop, h.inState, h.outState, if_true,
    Option.bind_some, Option.map_some]
  split <;> rfl

theorem nodeStop_paused (h : n.state = .paused) :
    nodeStop vt n ret = some ({ n with live := false }, 0) := by
  rw [nodeStop, if_neg]
  simp [State.stoppable, h]

theorem meets_stop_running (h : Running n) :
    Meets vt n (.stop ret) ↔ Orderly vt n (.stop ret) := by
  obtain hs | hp := h.state
  · have hne : n.state ≠ .paused := by
      intro hp
      simp [State.stoppable, hp] at hs
    by_cases hc : callback vt.stop ret = 0
    · simp [Meets, Orderly, StopsDriver, step, nodeStop_running h hs, hc, hne]
    · simp [Meets, Orderly, step, nodeStop_running h hs, hc, hne, hs, h.live]
  · simp [Meets, Orderly, step, nodeStop_paused hp, hp, h.inState]

theorem stop_running (h : Running n) (ho : Orderly vt n (.stop ret))
    (hstep : step vt n (.stop ret) = some n') : Stopped n' := by
  have hs : State.stoppable n.state := h.state.resolve_right ho.1
  simp only [step, nodeStop_running h hs, ho.2 hs, if_true, Option.map_some,
    Option.some.injEq] at hstep
  subst hstep
  exact ⟨rfl, rfl, rfl, rfl, rfl⟩

theorem meets_stopped (h : Stopped n) (hop : op.between) : Meets vt n op := by
  refine ⟨⟨n, step_stopped h hop, h.follows⟩, ?_⟩
  cases op with
  | stop ret =>
    intro n' hn' hw
    rw [nodeStop_stopped h, Option.some.injEq, Prod.mk.injEq] at hn'
    rw [← hn'.1]
    exact h.driverStopped
  | _ => trivial

theorem orderly_stopped (h : Stopped n) (hop : op.between) : Orderly vt n op := by
  cases op with
  | start ret marked => simp [Op.between] at hop
  | stop ret => exact ⟨by simp [h.state], fun hs => absurd hs h.not_stoppable⟩
  | _ => trivial

theorem meets_iff_between (h : Running n ∨ Stopped n) (hop : op.between) :
    Meets vt n op ↔ Orderly vt n op := by
  obtain h | h := h
  · by_cases hstop : ∃ ret, op = .stop ret
    · obtain ⟨ret, rfl⟩ := hstop
      exact meets_stop_running h
    · obtain ⟨n', hstep, hn'⟩ := step_running vt h hop hstop
      cases op with
      | start ret marked => simp [Op.between] at hop
      | stop ret => simp at hstop
      | _ => exact ⟨fun _ => trivial, fun _ => ⟨⟨n', hstep, hn'.follows⟩, trivial⟩⟩
  · exact ⟨fun _ => orderly_stopped h hop, fun _ => meets_stopped h hop⟩

theorem step_between (h : Running n ∨ Stopped n) (hop : op.between) (hm : Meets vt n op)
    (hstep : step vt n op = some n') : Running n' ∨ Stopped n' := by
  obtain h | h := h
  · by_cases hstop : ∃ ret, op = .stop ret
    · obtain ⟨ret, rfl⟩ := hstop
      exact .inr (stop_running h ((meets_stop_running h).mp hm) hstep)
    · obtain ⟨n₁, h₁, hn₁⟩ := step_running vt h hop hstop
      rw [h₁, Option.some.injEq] at hstep
      exact .inl (hstep ▸ hn₁)
  · rw [step_stopped h hop, Option.some.injEq] at hstep
    exact .inr (hstep ▸ h)

theorem meets_destroy (h : Stopped n) : Meets vt n (.destroy ret) := by
  by_cases hc : callback vt.destroy ret = 0
  · simp [Meets, StopsDriver, step, nodeDestroy, nodeDirectionDestroy, h.state, h.inState,
      h.outState, h.live, hc]
  · simp [Meets, StopsDriver, step, nodeDestroy, nodeDirectionDestroy, h.state, h.inState,
      h.outState, h.live, hc]

theorem nodeStart_prepared {marked : Bool} (h : Prepared n) :
    nodeStart vt n ret marked =
      if callback vt.start ret ≠ 0 then
        some ({ n with inState := .started, outState := .started }, some (callback vt.start ret))
      else if marked then
        some (⟨.started, n.typeState, .started, .started, true, true, false⟩, some 0)
      else some (⟨n.state, n.typeState, .started, .started, n.wasStarted, n.live, false⟩, none) := by
  rw [nodeStart, if_pos ⟨h.state, h.typeState⟩]
  simp only [nodeDirectionStart, h.inState, h.outState, if_true, Option.bind_some, Option.map_some]
  split
  · rfl
  split <;> rfl

theorem meets_start {marked : Bool} (h : Prepared n) :
    Meets vt n (.start ret marked) ↔ Orderly vt n (.start ret marked) := by
  by_cases hc : callback vt.start ret = 0
  · cases marked with
    | true => simp [Meets, Orderly, StopsDriver, step, nodeStart_prepared h, hc]
    | false => simp [Meets, Orderly, step, nodeStart_prepared h, hc, h.live]
  · simp [Meets, Orderly, step, nodeStart_prepared h, hc, h.live]

theorem start_running {marked : Bool} (h : Prepared n) (ho : Orderly vt n (.start ret marked))
    (hstep : step vt n (.start ret marked) = some n') : Running n' := by
  simp only [step, nodeStart_prepared h, ho.1, ho.2, ne_eq, not_true, if_false, if_true,
    Option.map_some, Option.some.injEq] at hstep
  subst hstep
  exact ⟨.inl (.inr (.inl rfl)), rfl, rfl, rfl, rfl⟩

theorem along_stop_destroy {destroyRet : Int} (h : Running n ∨ Stopped n) :
    Runs.Along (step vt) (Meets vt) n [.stop ret, .destroy destroyRet] ↔
      Runs.Along (step vt) (Orderly vt) n [.stop ret, .destroy destroyRet] := by
  have hstop : Meets vt n (.stop ret) ↔ Orderly vt n (.stop ret) := meets_iff_between h rfl
  simp only [Runs.Along, hstop]
  apply and_congr_right
  intro ho
  have hstopped : ∀ n', step vt n (.stop ret) = some n' → Stopped n' := by
    intro n' hstep
    obtain h | h := h
    · exact stop_running h ho hstep
    · rw [step_stopped h rfl, Option.some.injEq] at hstep
      exact hstep ▸ h
  apply forall₂_congr
  intro n' hstep
  simp [meets_destroy (hstopped n' hstep), Orderly]

end

/-- In every run, and for every driver, nothing goes wrong exactly when the driver's callbacks for
start and stop succeed whenever they are called and the node is never stopped while it is paused. -/
theorem life_cycle (vt : NodeType) {n : Node} (hn : Prepared n) (startRet : Int) (marked : Bool)
    (calls : List Op) (hcalls : ∀ op ∈ calls, op.between) (stopRet destroyRet : Int) :
    Runs.Along (step vt) (Meets vt) n
        (.start startRet marked :: (calls ++ [.stop stopRet, .destroy destroyRet])) ↔
      Runs.Along (step vt) (Orderly vt) n
        (.start startRet marked :: (calls ++ [.stop stopRet, .destroy destroyRet])) := by
  simp only [Runs.Along, meets_start hn]
  apply and_congr_right
  intro ho
  apply forall₂_congr
  intro n' hstep
  have hrunning : Running n' ∨ Stopped n' := .inl (start_running hn ho hstep)
  exact Runs.along_iff (I := fun n => Running n ∨ Stopped n) (P := fun op => op.between)
    (fun n op h hop => meets_iff_between h hop) (fun n op n' h hop => step_between h hop)
    (fun n h => along_stop_destroy h) hrunning hcalls

/-- A driver with a callback for everything but `restart`. -/
def plainType : NodeType := ⟨true, true, true, true, false, true⟩

def preparedNode : Node := ⟨.prepared, .started, .prepared, .prepared, false, false, false⟩

theorem prepared_preparedNode : Prepared preparedNode := ⟨rfl, rfl, rfl, rfl, rfl, rfl⟩

theorem life_cycle_pause_resume :
    Prepared preparedNode ∧ Runs.Along (step plainType) (Meets plainType) preparedNode
      [.start 0 true, .pause 0, .resume 0, .restart 0 0, .stop 0, .destroy 0] :=
  ⟨prepared_preparedNode,
    (life_cycle plainType prepared_preparedNode 0 true [.pause 0, .resume 0, .restart 0 0]
      (by decide) 0 0).mpr
        (by simp [Runs.Along, Orderly, step, nodeStart, nodeDirectionStart, callback, plainType,
          preparedNode, nodePause, nodeResume, nodeRestart])⟩

/-- `node_stop` returns 0 for a paused node without a call to the driver, and the assertion of
`node_direction_destroy` fails after it. -/
theorem paused_node_not_stopped :
    ∃ n, Runs.run (step plainType) preparedNode [.start 0 true, .pause 0] = some n ∧
      nodeStop plainType n 0 = some ({ n with live := false }, 0) ∧ n.wasStarted ∧
      n.driverStopped = false ∧
      step plainType { n with live := false } (.destroy 0) = none ∧
      ¬ Runs.Along (step plainType) (Meets plainType) preparedNode
        [.start 0 true, .pause 0, .stop 0, .destroy 0] := by
  refine ⟨⟨.paused, .started, .started, .started, true, true, false⟩, by decide, by decide, rfl, rfl,
    by decide, ?_⟩
  simp [Runs.Along, Meets, StopsDriver, step, nodeStart, nodeStop, nodePause, nodeDirectionStart,
    callback, plainType, preparedNode, State.stoppable]

end VillasNode.LifeCycle
