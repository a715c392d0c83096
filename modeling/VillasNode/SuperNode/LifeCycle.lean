import Mathlib.Data.List.Basic
import VillasNode.Lib.Ending
import VillasNode.Lib.Fallible
import VillasNode.Node.LifeCycle

/-!
# The life cycle of a super node

`SuperNode::check`, `prepare`, `start`, `stop` and the destructor, over all
nodes and paths of a configuration. In between nodes are started, stopped,
paused, resumed and restarted over the API, one by one. An exception ends the
life early: then only the destructor runs. The API and the web server have threads
of their own, which have to be stopped before.
-/

namespace VillasNode.SuperNodeLife

open LifeCycle Ending

/-! ## State -/

/-- A node, the number of its type, and the number by which its callbacks are known. -/
structure Member where
  id : Nat
  type : Nat
  enabled : Bool
  node : LifeCycle.Node
deriving DecidableEq

/-- An entry of `p->mappings` by the index of its node. The signals of the node are looked up twice
if it maps data. -/
structure Mapping where
  node : Nat
  data : Bool
deriving DecidableEq

structure PathLife where
  id : Nat
  enabled : Bool
  mappings : List Mapping
  /-- The indices of the nodes of its destinations. -/
  destinations : List Nat
  state : State
deriving DecidableEq

structure System where
  state : State
  /-- The states of the node types. -/
  types : Nat → State
  nodes : List Member
  paths : List PathLife
  /-- The indices of the nodes that have a path source. -/
  read : List Nat
  /-- `none` in a build without the API. -/
  api : Option State
  /-- `none` in a build without the web server. -/
  web : Option State

/-- The step in which `node_check` or `node_prepare` gives up. -/
inductive Stage where
  | driver
  | input
  | output
deriving DecidableEq

/-- What callbacks and other calls give. Functions without a result in the code throw if they do not
succeed. -/
structure Answers where
  check : Nat → Option Stage
  pathCheck : Nat → Bool
  memoryInit : Bool
  prepare : Nat → Option Stage
  pathPrepare : Nat → Bool
  webStart : Bool
  typeStart : Nat → Int
  interfacesStart : Bool
  start : Nat → Int
  marked : Nat → Bool
  pathStart : Nat → Bool
  stop : Nat → Int
  pathStop : Nat → Int
  typeStop : Nat → Int
  interfacesStop : Bool
  destroy : Nat → Int

/-! ## Nodes -/

def nodeCheck (fails : Option Stage) (n : Node) : Ending Node :=
  if n.state = .destroyed then .aborted
  else if fails = some .input then .thrown n
  else
    let n := { n with inState := .checked }
    if fails = some .output then .thrown n
    else
      let n := { n with outState := .checked }
      if fails = some .driver then .thrown n else .returned { n with state := .checked }

def nodePrepare (fails : Option Stage) (n : Node) : Ending Node :=
  if n.state ≠ .checked then .aborted
  else if fails = some .driver then .thrown n
  else if n.inState ≠ .checked then .aborted
  else if fails = some .input then .thrown n
  else
    let n := { n with inState := .prepared }
    if n.outState ≠ .checked then .aborted
    else if fails = some .output then .thrown n
    else .returned { n with outState := .prepared, state := .prepared }

/-- `ret = node_…(n); if (ret) throw` -/
def throwing : Option (Node × Int) → Ending Node
  | none => .aborted
  | some (n, ret) => if ret = 0 then .returned n else .thrown n

/-- A failed `setsockopt` throws as well. -/
def starting : Option (Node × Option Int) → Ending Node
  | none => .aborted
  | some (n, ret) => if ret = some 0 then .returned n else .thrown n

namespace Member

def run (m : Member) (o : Ending Node) : Ending Member := o.map fun node => { m with node }

variable (vts : Nat → NodeType) (types : Nat → State) (a : Answers) (m : Member)

/-- `node_type(n)->state` is one for all nodes of the type. -/
def typed : Node := { m.node with typeState := types m.type }

def check : Ending Member := m.run (nodeCheck (a.check m.id) m.node)

def prepare : Ending Member :=
  if m.enabled then m.run (nodePrepare (a.prepare m.id) m.node) else .returned m

def start : Ending Member :=
  if m.enabled then
    m.run (starting (nodeStart (vts m.type) (m.typed types) (a.start m.id) (a.marked m.id)))
  else .returned m

def stop : Ending Member := m.run (throwing (nodeStop (vts m.type) m.node (a.stop m.id)))

def destroy : Option Member :=
  (nodeDestroy (vts m.type) m.node (a.destroy m.id)).map fun r => { m with node := r.1 }

end Member

/-! ## Paths -/

namespace PathLife

variable (a : Answers) (p : PathLife)

def check : Ending PathLife :=
  if p.state = .destroyed then .aborted
  else if a.pathCheck p.id then .returned { p with state := .checked }
  else .thrown p

def start : Ending PathLife :=
  if ¬ p.enabled then .returned p
  else if p.state ≠ .prepared then .aborted
  else if a.pathStart p.id then .returned { p with state := .started }
  else .thrown p

def stop : Ending PathLife :=
  if p.state ≠ .started ∧ p.state ≠ .stopping then .returned p
  else if a.pathStop p.id = 0 then .returned { p with state := .stopped }
  else .thrown { p with state := .stopping }

end PathLife

namespace System

variable (vts : Nat → NodeType) (a : Answers) (s : System)

def onNodes (f : Member → Ending Member) : Ending System :=
  (each f s.nodes).map fun nodes => { s with nodes }

def onPaths (f : PathLife → Ending PathLife) : Ending System :=
  (each f s.paths).map fun paths => { s with paths }

/-- `mapping_list_prepare`, and whether the signals of all these nodes can be looked up. -/
def lookups (s : System) : List Mapping → Ending Unit
  | [] => .returned ()
  | me :: mes =>
    match s.nodes[me.node]? with
    | none => .thrown ()
    | some m => if me.data ∧ m.node.inState ≠ .prepared then .aborted else s.lookups mes

/-- A new path source for the node `n`. A second one reads from a node of type `loopback_internal`,
the type with the number 0. -/
def addSource (n : Nat) : System :=
  if n ∈ s.read then
    let loopback := { state := .prepared, typeState := .initialized, inState := .prepared
                      outState := .prepared, wasStarted := false, live := false, driverStopped := false }
    { s with nodes := s.nodes ++ [⟨s.nodes.length, 0, true, loopback⟩], read := s.nodes.length :: s.read }
  else { s with read := n :: s.read }

/-- The loop over the mapping entries in `path_prepare`. `mine` are the nodes for which the path has a
source. -/
def pathSources (s : System) (mine : List Nat) : List Mapping → Ending System
  | [] => .returned s
  | me :: mes =>
    let s := if me.node ∈ mine then s else s.addSource me.node
    match s.nodes[me.node]? with
    | none => .thrown s
    | some m => if m.node.inState ≠ .prepared then .aborted else s.pathSources (me.node :: mine) mes

/-- The state of the path is set in `preparePaths`. -/
def pathPrepare (p : PathLife) : Ending System :=
  if p.state ≠ .checked then .aborted
  else
    match s.lookups p.mappings with
    | .aborted => .aborted
    | .thrown _ => .thrown s
    | .returned _ =>
      match s.pathSources [] p.mappings with
      | .returned s => if a.pathPrepare p.id then .returned s else .thrown s
      | o => o

/-- The paths in front have been prepared. -/
def preparePaths (s : System) (front : List PathLife) : List PathLife → Ending System
  | [] => .returned { s with paths := front }
  | p :: ps =>
    if p.enabled then
      match s.pathPrepare a p with
      | .aborted => .aborted
      | .thrown s => .thrown s
      | .returned s => s.preparePaths (front ++ [{ p with state := .prepared }]) ps
    else s.preparePaths (front ++ [p]) ps

/-- Nodes that no path uses are disabled. -/
def disableUnused : System :=
  { s with nodes := s.nodes.mapIdx fun k m =>
      { m with enabled := m.enabled && (k ∈ s.read ∨ ∃ p ∈ s.paths, k ∈ p.destinations) } }

def startNodeTypes (types : Nat → State) : List Member → Ending (Nat → State)
  | [] => .returned types
  | m :: ms =>
    if types m.type = .started then startNodeTypes types ms
    else if a.typeStart m.type = 0 then startNodeTypes (Function.update types m.type .started) ms
    else .thrown types

/-- Over all types that there are. -/
def stopNodeTypes (types : Nat → State) : List Nat → Ending (Nat → State)
  | [] => .returned types
  | t :: ts =>
    if types t ≠ .started then stopNodeTypes types ts
    else if a.typeStop t = 0 then stopNodeTypes (Function.update types t .stopped) ts
    else .thrown types

/-! ## The API and the web server -/

def startApi : Ending System :=
  match s.api with
  | none => .returned s
  | some state => if state = .started then .aborted else .returned { s with api := some .started }

def startWeb : Ending System :=
  match s.web with
  | none => .returned s
  | some _ => if a.webStart then .returned { s with web := some .started } else .thrown s

def startInterfaces : Ending System := if a.interfacesStart then .returned s else .thrown s

def stopInterfaces : Ending System := if a.interfacesStop then .returned s else .thrown s

def stopApi : Ending System :=
  match s.api with
  | none => .returned s
  | some state => if state ≠ .started then .aborted else .returned { s with api := some .stopped }

def stopWeb : Ending System :=
  match s.web with
  | none => .returned s
  | some state => if state ≠ .started then .aborted else .returned { s with web := some .stopped }

/-! ## The calls -/

def check : Ending System :=
  if s.state ≠ .initialized ∧ s.state ≠ .parsed ∧ s.state ≠ .checked then .aborted
  else (s.onNodes (Member.check a)).andThen fun s =>
    (s.onPaths (PathLife.check a)).andThen fun s => .returned { s with state := .checked }

def prepare : Ending System :=
  if s.state ≠ .checked then .aborted
  else if ¬ a.memoryInit then .thrown s
  else (s.onNodes (Member.prepare a)).andThen fun s =>
    (s.preparePaths a [] s.paths).andThen fun s => .returned { s.disableUnused with state := .prepared }

/-- The calls of `start` behind those for the API and the web server. -/
def startRest : Ending System :=
  ((startNodeTypes a s.types s.nodes).map fun types => { s with types }).andThen fun s =>
    (s.startInterfaces a).andThen fun s => (s.onNodes (Member.start vts s.types a)).andThen fun s =>
      (s.onPaths (PathLife.start a)).andThen fun s => .returned { s with state := .started }

def start : Ending System :=
  if s.state ≠ .prepared then .aborted
  else s.startApi.andThen fun s => (s.startWeb a).andThen fun s => s.startRest vts a

def stop (ts : List Nat) : Ending System :=
  (s.onNodes (Member.stop vts a)).andThen fun s =>
    (s.onPaths (PathLife.stop a)).andThen fun s =>
      ((stopNodeTypes a s.types ts).map fun types => { s with types }).andThen fun s =>
        (s.stopInterfaces a).andThen fun s => s.stopApi.andThen fun s => s.stopWeb.andThen fun s =>
          .returned { s with state := .stopped }

/-- The thread of the API or of the web server runs. -/
def Serving : Prop := s.api = some .started ∨ s.web = some .started

instance : Decidable s.Serving := inferInstanceAs (Decidable (_ ∨ _))

/-- `Web` has no destructor: that of a thread that runs ends the program as well. -/
def destroy : Option System :=
  if s.state = .started ∨ s.Serving then none
  else (s.nodes.mapM (Member.destroy vts a)).map fun nodes =>
    { s with nodes, paths := s.paths.map fun p => { p with state := .destroyed } }

end System

/-! ## A life -/

/-- A request for one node, or a change of its state by its driver. There is no request for a node
that does not exist. -/
def event (vts : Nat → NodeType) (s : System) (e : Nat × Op) : Option System :=
  match s.nodes[e.1]? with
  | none => some s
  | some m => (step (vts m.type) (m.typed s.types) e.2).map fun node =>
      { s with nodes := s.nodes.set e.1 { m with node } }

def comeUp (vts : Nat → NodeType) (a : Answers) (s : System) : Ending System :=
  ((s.check a).andThen (System.prepare a)).andThen (System.start vts a)

/-- `SuperNode::run` has left its loop because a signal has changed the state. -/
def comeDown (vts : Nat → NodeType) (a : Answers) (ts : List Nat) (s : System) : Option System :=
  match { s with state := .stopping }.stop vts a ts with
  | .aborted => none
  | .thrown s | .returned s => s.destroy vts a

/-- `none` if an assertion fails. -/
def life (vts : Nat → NodeType) (a : Answers) (ts : List Nat) (events : List (Nat × Op)) (s : System) :
    Option System :=
  match comeUp vts a s with
  | .aborted => none
  | .thrown s => s.destroy vts a
  | .returned s => (Runs.run (event vts) s events).bind (comeDown vts a ts)

/-! ## What a node can be -/

/-- Nothing was started. -/
structure Untouched (phase : State) (n : Node) : Prop where
  state : n.state = phase
  inState : n.inState = phase
  outState : n.outState = phase
  wasStarted : n.wasStarted = false
  live : n.live = false

/-- The request to stop a paused node succeeds, but does nothing. -/
def Active (n : Node) : Prop := LifeCycle.Running { n with live := true }

/-- What a node is between `SuperNode::start` and `SuperNode::stop`. -/
def Sound (n : Node) : Prop := Untouched .checked n ∨ Untouched .prepared n ∨ Active n ∨ Stopped n

/-- Between `SuperNode::prepare` and `SuperNode::start`. -/
structure Ready (s : System) : Prop where
  state : s.state = .prepared
  nodes : ∀ m ∈ s.nodes, m.enabled = false ∧ Untouched .checked m.node ∨ Untouched .prepared m.node
  paths : ∀ p ∈ s.paths, p.enabled → p.state = .prepared

structure Up (s : System) : Prop where
  nodes : ∀ m ∈ s.nodes, s.types m.type = .started ∧ Sound m.node
  api : ∀ state, s.api = some state → state = .started
  web : ∀ state, s.web = some state → state = .started

/-- Nothing fails before `SuperNode::start`, -/
structure Answers.Prepares (a : Answers) : Prop where
  check : ∀ k, a.check k = none
  pathCheck : ∀ k, a.pathCheck k
  memoryInit : a.memoryInit
  prepare : ∀ k, a.prepare k = none
  pathPrepare : ∀ k, a.pathPrepare k

/-- and nothing after it. -/
structure Answers.Good (a : Answers) : Prop extends a.Prepares where
  webStart : a.webStart
  typeStart : ∀ k, a.typeStart k = 0
  interfacesStart : a.interfacesStart
  start : ∀ k, a.start k = 0
  marked : ∀ k, a.marked k
  pathStart : ∀ k, a.pathStart k
  stop : ∀ k, a.stop k = 0
  pathStop : ∀ k, a.pathStop k = 0
  typeStop : ∀ k, a.typeStop k = 0
  interfacesStop : a.interfacesStop

/-- A node is started when it has not been yet. -/
def Allowed (s : System) : Nat × Op → Prop
  | (k, .start _ _) => ∀ m, s.nodes[k]? = some m → m.node.state = .prepared
  | _ => True

/-- The callbacks for start and stop succeed when a request calls them. No request destroys a node. -/
def Succeeds : Op → Prop
  | .start ret marked => ret = 0 ∧ marked
  | .stop ret => ret = 0
  | .destroy _ => False
  | .pause _ | .resume _ | .restart _ _ | .driver _ => True

/-- A configuration that was read: all names of nodes in its mappings are known. -/
structure Parsed (s : System) : Prop where
  state : s.state = .parsed
  nodes : ∀ m ∈ s.nodes, Untouched .parsed m.node
  paths : ∀ p ∈ s.paths, p.state = .parsed
  mapped : ∀ p ∈ s.paths, ∀ me ∈ p.mappings, me.node < s.nodes.length
  read : s.read = []
  quiet : ¬ s.Serving

/-- No path that is enabled maps a node that is not. -/
def MapsEnabled (s : System) : Prop :=
  ∀ p ∈ s.paths, p.enabled → ∀ me ∈ p.mappings, ∀ m, s.nodes[me.node]? = some m → m.enabled

/-! ## Checking and preparing -/

section
variable {vts : Nat → NodeType} {a : Answers} {ts : List Nat} {s s' : System} {n n' : Node}

def checkedNode (n : Node) : Node := { n with state := .checked, inState := .checked, outState := .checked }

def preparedNode (n : Node) : Node :=
  { n with state := .prepared, inState := .prepared, outState := .prepared }

theorem checkedNode_untouched (h : Untouched .parsed n) : Untouched .checked (checkedNode n) :=
  ⟨rfl, rfl, rfl, h.wasStarted, h.live⟩

theorem preparedNode_untouched (h : Untouched .checked n) : Untouched .prepared (preparedNode n) :=
  ⟨rfl, rfl, rfl, h.wasStarted, h.live⟩

/-- The configuration after `check`. -/
def checkedSystem (s : System) : System :=
  { s with state := .checked
           nodes := s.nodes.map fun m => { m with node := checkedNode m.node }
           paths := s.paths.map fun p => { p with state := .checked } }

theorem check_returns (ha : a.Prepares) (hs : Parsed s) : s.check a = .returned (checkedSystem s) := by
  have hnodes : each (Member.check a) s.nodes =
      .returned (s.nodes.map fun m => { m with node := checkedNode m.node }) := by
    apply each_map
    intro m hm
    unfold Member.check nodeCheck
    rw [ha.check, (hs.nodes m hm).state]
    rfl
  have hpaths : each (PathLife.check a) s.paths =
      .returned (s.paths.map fun p => { p with state := .checked }) := by
    apply each_map
    intro p hp
    unfold PathLife.check
    rw [hs.paths p hp, if_neg (by decide), if_pos (ha.pathCheck p.id)]
  unfold System.check System.onNodes System.onPaths
  rw [hs.state, if_neg (by decide), hnodes]
  dsimp only [Ending.map, Ending.andThen]
  rw [hpaths]
  rfl

/-- Nodes may have been added, all of them prepared. -/
structure Grows (s s' : System) : Prop where
  nodes : ∃ more, s'.nodes = s.nodes ++ more ∧ ∀ m ∈ more, Untouched .prepared m.node
  state : s'.state = s.state
  types : s'.types = s.types
  paths : s'.paths = s.paths
  serving : s'.Serving ↔ s.Serving

theorem Grows.refl (s : System) : Grows s s := ⟨⟨[], by simp⟩, rfl, rfl, rfl, .rfl⟩

theorem Grows.trans {s₁ s₂ s₃ : System} (h₁ : Grows s₁ s₂) (h₂ : Grows s₂ s₃) : Grows s₁ s₃ := by
  obtain ⟨more₁, heq₁, hmore₁⟩ := h₁.nodes
  obtain ⟨more₂, heq₂, hmore₂⟩ := h₂.nodes
  refine ⟨⟨more₁ ++ more₂, by rw [heq₂, heq₁, List.append_assoc], fun m hm => ?_⟩,
    h₂.state.trans h₁.state, h₂.types.trans h₁.types, h₂.paths.trans h₁.paths,
    h₂.serving.trans h₁.serving⟩
  rcases List.mem_append.mp hm with hm | hm
  · exact hmore₁ m hm
  · exact hmore₂ m hm

theorem addSource_grows (s : System) (k : Nat) : Grows s (s.addSource k) := by
  unfold System.addSource
  split
  · refine ⟨⟨_, rfl, fun m hm => ?_⟩, rfl, rfl, rfl, .rfl⟩
    cases List.mem_singleton.mp hm
    exact ⟨rfl, rfl, rfl, rfl, rfl⟩
  · exact ⟨⟨[], by simp⟩, rfl, rfl, rfl, .rfl⟩

/-- The signals of the node `k` can be looked up. -/
def Provides (s : System) (k : Nat) : Prop := ∃ m, s.nodes[k]? = some m ∧ m.node.inState = .prepared

theorem Grows.getElem? {k : Nat} (h : Grows s s') (hk : k < s.nodes.length) : s'.nodes[k]? = s.nodes[k]? := by
  obtain ⟨more, heq, -⟩ := h.nodes
  rw [heq, List.getElem?_append_left hk]

theorem Grows.length_le (h : Grows s s') : s.nodes.length ≤ s'.nodes.length := by
  obtain ⟨more, heq, -⟩ := h.nodes
  rw [heq, List.length_append]
  exact Nat.le_add_right _ _

theorem Grows.provides_iff {k : Nat} (h : Grows s s') (hk : k < s.nodes.length) :
    Provides s' k ↔ Provides s k := by
  unfold Provides
  rw [h.getElem? hk]

theorem lookups_spec {mes : List Mapping} (hin : ∀ me ∈ mes, me.node < s.nodes.length) :
    s.lookups mes = .returned () ∨ s.lookups mes = .aborted ∧ ∃ me ∈ mes, ¬ Provides s me.node := by
  induction mes with
  | nil => exact .inl rfl
  | cons me mes ih =>
    rw [List.forall_mem_cons] at hin
    unfold System.lookups
    rw [List.getElem?_eq_getElem hin.1]
    dsimp only
    split
    · rename_i hnot
      refine .inr ⟨rfl, me, List.mem_cons_self, ?_⟩
      rintro ⟨m, hget, hprepared⟩
      rw [List.getElem?_eq_getElem hin.1] at hget
      cases hget
      exact hnot.2 hprepared
    · rcases ih hin.2 with hok | ⟨hbad, me', hme', hnot⟩
      · exact .inl hok
      · exact .inr ⟨hbad, me', List.mem_cons_of_mem me hme', hnot⟩

theorem pathSources_spec {mes : List Mapping} (mine : List Nat)
    (hin : ∀ me ∈ mes, me.node < s.nodes.length) :
    (∃ s', s.pathSources mine mes = .returned s' ∧ Grows s s' ∧ ∀ me ∈ mes, Provides s me.node) ∨
      s.pathSources mine mes = .aborted ∧ ∃ me ∈ mes, ¬ Provides s me.node := by
  induction mes generalizing s mine with
  | nil => exact .inl ⟨s, rfl, .refl s, by simp⟩
  | cons me mes ih =>
    rw [List.forall_mem_cons] at hin
    have hgrows : Grows s (if me.node ∈ mine then s else s.addSource me.node) := by
      split
      · exact .refl s
      · exact addSource_grows s me.node
    unfold System.pathSources
    dsimp only
    generalize (if me.node ∈ mine then s else s.addSource me.node) = s₁ at hgrows
    have hlt : me.node < s₁.nodes.length := hin.1.trans_le hgrows.length_le
    rw [List.getElem?_eq_getElem hlt]
    dsimp only
    split
    · rename_i hnot
      refine .inr ⟨rfl, me, List.mem_cons_self, ?_⟩
      rw [← hgrows.provides_iff hin.1]
      rintro ⟨m, hget, hprepared⟩
      rw [List.getElem?_eq_getElem hlt] at hget
      cases hget
      exact hnot hprepared
    · rename_i hprepared
      have hme : Provides s me.node := by
        rw [← hgrows.provides_iff hin.1]
        exact ⟨_, List.getElem?_eq_getElem hlt, not_not.mp hprepared⟩
      have hmes : ∀ me' ∈ mes, me'.node < s₁.nodes.length :=
        fun me' hme' => (hin.2 me' hme').trans_le hgrows.length_le
      rcases ih (me.node :: mine) hmes with ⟨s', hs', hgrows', hall⟩ | ⟨hbad, me', hme', hnot⟩
      · refine .inl ⟨s', hs', hgrows.trans hgrows', List.forall_mem_cons.mpr ⟨hme, fun me' hme' => ?_⟩⟩
        exact (hgrows.provides_iff (hin.2 me' hme')).mp (hall me' hme')
      · refine .inr ⟨hbad, me', List.mem_cons_of_mem me hme', ?_⟩
        rwa [← hgrows.provides_iff (hin.2 me' hme')]

theorem pathPrepare_spec (ha : a.Prepares) {p : PathLife} (hp : p.state = .checked)
    (hin : ∀ me ∈ p.mappings, me.node < s.nodes.length) :
    (∃ s', s.pathPrepare a p = .returned s' ∧ Grows s s' ∧ ∀ me ∈ p.mappings, Provides s me.node) ∨
      s.pathPrepare a p = .aborted ∧ ∃ me ∈ p.mappings, ¬ Provides s me.node := by
  unfold System.pathPrepare
  rw [if_neg (by simp [hp])]
  rcases lookups_spec hin with hlookups | ⟨hlookups, hnot⟩
  · rw [hlookups]
    dsimp only
    rcases pathSources_spec [] hin with ⟨s', hs', hgrows, hall⟩ | ⟨hbad, hnot⟩
    · rw [hs']
      dsimp only
      rw [if_pos (ha.pathPrepare p.id)]
      exact .inl ⟨s', rfl, hgrows, hall⟩
    · rw [hbad]
      exact .inr ⟨rfl, hnot⟩
  · rw [hlookups]
    exact .inr ⟨rfl, hnot⟩

def preparedPath (p : PathLife) : PathLife := if p.enabled then { p with state := .prepared } else p

/-- What is asked of each path that is prepared. -/
def AllProvided (s : System) (ps : List PathLife) : Prop :=
  ∀ p ∈ ps, p.enabled → ∀ me ∈ p.mappings, Provides s me.node

theorem preparePaths_spec (ha : a.Prepares) (front : List PathLife) {ps : List PathLife}
    (hps : ∀ p ∈ ps, p.state = .checked) (hin : ∀ p ∈ ps, ∀ me ∈ p.mappings, me.node < s.nodes.length) :
    (∃ s₁, s.preparePaths a front ps = .returned { s₁ with paths := front ++ ps.map preparedPath } ∧
        Grows s s₁ ∧ AllProvided s ps) ∨
      s.preparePaths a front ps = .aborted ∧ ¬ AllProvided s ps := by
  induction ps generalizing s front with
  | nil =>
    refine .inl ⟨s, ?_, .refl s, by simp [AllProvided]⟩
    unfold System.preparePaths
    rw [List.map_nil, List.append_nil]
  | cons p ps ih =>
    rw [List.forall_mem_cons] at hps hin
    unfold System.preparePaths AllProvided
    rw [List.forall_mem_cons, List.map_cons]
    split
    · rename_i henabled
      rcases pathPrepare_spec ha hps.1 hin.1 with ⟨s₁, hs₁, hgrows, hall⟩ | ⟨hbad, me, hme, hnot⟩
      · rw [hs₁]
        dsimp only
        have hin₁ : ∀ p ∈ ps, ∀ me ∈ p.mappings, me.node < s₁.nodes.length :=
          fun p hp me hme => (hin.2 p hp me hme).trans_le hgrows.length_le
        have hiff : AllProvided s₁ ps ↔ AllProvided s ps := by
          apply forall₂_congr
          intro p hp
          apply imp_congr_right
          intro _
          apply forall₂_congr
          intro me hme
          exact hgrows.provides_iff (hin.2 p hp me hme)
        rcases ih (front ++ [{ p with state := .prepared }]) hps.2 hin₁ with
          ⟨s₂, hs₂, hgrows₂, hrest⟩ | ⟨hbad, hrest⟩
        · refine .inl ⟨s₂, ?_, hgrows.trans hgrows₂, fun _ => hall, hiff.mp hrest⟩
          have hp : preparedPath p = { p with state := .prepared } := if_pos henabled
          rw [hs₂, List.append_assoc, List.singleton_append, hp]
        · refine .inr ⟨hbad, fun hboth => hrest (hiff.mpr hboth.2)⟩
      · rw [hbad]
        exact .inr ⟨rfl, fun hboth => hnot (hboth.1 henabled me hme)⟩
    · rename_i hdisabled
      rcases ih (front ++ [p]) hps.2 hin.2 with ⟨s₂, hs₂, hgrows₂, hrest⟩ | ⟨hbad, hrest⟩
      · refine .inl ⟨s₂, ?_, hgrows₂, fun henabled => absurd henabled hdisabled, hrest⟩
        have hp : preparedPath p = p := if_neg hdisabled
        rw [hs₂, List.append_assoc, List.singleton_append, hp]
      · exact .inr ⟨hbad, fun hboth => hrest hboth.2⟩

theorem disableUnused_ready (s : System)
    (h : ∀ m ∈ s.nodes, m.enabled = false ∧ Untouched .checked m.node ∨ Untouched .prepared m.node) :
    ∀ m ∈ s.disableUnused.nodes,
      m.enabled = false ∧ Untouched .checked m.node ∨ Untouched .prepared m.node := by
  intro m hm
  obtain ⟨k, hk, rfl⟩ := List.mem_mapIdx.mp hm
  rcases h _ (List.getElem_mem hk) with ⟨hdisabled, hnode⟩ | hnode
  · exact .inl ⟨by simp [hdisabled], hnode⟩
  · exact .inr hnode

def preparedMember (m : Member) : Member :=
  if m.enabled then { m with node := preparedNode m.node } else m

/-- The configuration after `prepareNodes`. -/
def preparedSystem (s : System) : System :=
  { checkedSystem s with nodes := (checkedSystem s).nodes.map preparedMember }

theorem prepareNodes_returns (ha : a.Prepares) (s : System) :
    (checkedSystem s).onNodes (Member.prepare a) = .returned (preparedSystem s) := by
  have heach : each (Member.prepare a) (checkedSystem s).nodes =
      .returned ((checkedSystem s).nodes.map preparedMember) := by
    apply each_map
    intro m hm
    obtain ⟨m₀, hm₀, rfl⟩ := List.mem_map.mp hm
    unfold Member.prepare preparedMember
    rw [ha.prepare]
    split
    · rfl
    · rfl
  unfold System.onNodes
  rw [heach]
  rfl

theorem preparedSystem_nodes (hs : Parsed s) :
    ∀ m ∈ (preparedSystem s).nodes,
      m.enabled = false ∧ Untouched .checked m.node ∨ Untouched .prepared m.node := by
  intro m hm
  obtain ⟨m₁, hm₁, rfl⟩ := List.mem_map.mp hm
  obtain ⟨m₀, hm₀, rfl⟩ := List.mem_map.mp hm₁
  have hnode := checkedNode_untouched (hs.nodes m₀ hm₀)
  unfold preparedMember
  split
  · exact .inr (preparedNode_untouched hnode)
  · rename_i hdisabled
    exact .inl ⟨Bool.eq_false_iff.mpr hdisabled, hnode⟩

theorem preparedSystem_provides {k : Nat} (hk : k < s.nodes.length) :
    Provides (preparedSystem s) k ↔ ∀ m, s.nodes[k]? = some m → m.enabled := by
  have hget : (preparedSystem s).nodes[k]? =
      some (preparedMember { s.nodes[k] with node := checkedNode s.nodes[k].node }) := by
    unfold preparedSystem checkedSystem
    dsimp only
    rw [List.getElem?_map, List.getElem?_map, List.getElem?_eq_getElem hk]
    rfl
  unfold Provides
  rw [hget, List.getElem?_eq_getElem hk]
  simp only [Option.some.injEq, exists_eq_left', forall_eq']
  unfold preparedMember
  dsimp only
  split
  · rename_i henabled
    exact iff_of_true rfl henabled
  · rename_i hdisabled
    exact iff_of_false (by simp [checkedNode]) hdisabled

theorem allProvided_iff (hs : Parsed s) :
    AllProvided (preparedSystem s) (preparedSystem s).paths ↔ MapsEnabled s := by
  have hpaths : (preparedSystem s).paths = s.paths.map fun p => { p with state := .checked } := rfl
  unfold AllProvided MapsEnabled
  rw [hpaths, List.forall_mem_map]
  apply forall₂_congr
  intro p hp
  apply imp_congr_right
  intro _
  apply forall₂_congr
  intro me hme
  exact preparedSystem_provides (hs.mapped p hp me hme)

/-- All nodes that are enabled are prepared, and so are the paths, unless one of them maps a node that
is not enabled. -/
theorem prepare_spec (ha : a.Prepares) (hs : Parsed s) :
    (∃ s', (checkedSystem s).prepare a = .returned s' ∧ Ready s' ∧ ¬ s'.Serving ∧ MapsEnabled s) ∨
      (checkedSystem s).prepare a = .aborted ∧ ¬ MapsEnabled s := by
  have hpaths : ∀ p ∈ (preparedSystem s).paths, p.state = .checked := by
    intro p hp
    obtain ⟨p₀, hp₀, rfl⟩ := List.mem_map.mp hp
    rfl
  have hin : ∀ p ∈ (preparedSystem s).paths, ∀ me ∈ p.mappings,
      me.node < (preparedSystem s).nodes.length := by
    intro p hp me hme
    obtain ⟨p₀, hp₀, rfl⟩ := List.mem_map.mp hp
    have hlength : (preparedSystem s).nodes.length = s.nodes.length := by
      simp [preparedSystem, checkedSystem]
    rw [hlength]
    exact hs.mapped p₀ hp₀ me hme
  have hcall : (checkedSystem s).prepare a =
      ((preparedSystem s).preparePaths a [] (preparedSystem s).paths).andThen
        fun s => .returned { s.disableUnused with state := .prepared } := by
    unfold System.prepare
    rw [if_neg (by simp [checkedSystem]), if_neg (by simp [ha.memoryInit]), prepareNodes_returns ha s]
    rfl
  rw [hcall, ← allProvided_iff hs]
  rcases preparePaths_spec ha [] hpaths hin with ⟨s₂, hs₂, hgrows, hall⟩ | ⟨hbad, hnot⟩
  · rw [hs₂]
    refine .inl ⟨_, rfl, ⟨rfl, ?_, ?_⟩, fun h => hs.quiet (hgrows.serving.mp h), hall⟩
    · apply disableUnused_ready
      obtain ⟨more, heq, hmore⟩ := hgrows.nodes
      intro m hm
      dsimp only at hm
      rw [heq] at hm
      rcases List.mem_append.mp hm with hm | hm
      · exact preparedSystem_nodes hs m hm
      · exact .inr (hmore m hm)
    · intro p hp henabled
      have hmem : p ∈ (preparedSystem s).paths.map preparedPath := hp
      obtain ⟨p₀, hp₀, rfl⟩ := List.mem_map.mp hmem
      unfold preparedPath at henabled ⊢
      split
      · rfl
      · rename_i hdisabled
        rw [if_neg hdisabled] at henabled
        exact absurd henabled hdisabled
  · rw [hbad]
    exact .inr ⟨rfl, hnot⟩

/-! ## Starting -/

theorem startNodeTypes_spec {ms : List Member} {types types' : Nat → State}
    (h : System.startNodeTypes a types ms = .returned types') :
    (∀ t, types t = .started → types' t = .started) ∧ ∀ m ∈ ms, types' m.type = .started := by
  induction ms generalizing types with
  | nil =>
    cases h
    exact ⟨fun t ht => ht, by simp⟩
  | cons m ms ih =>
    unfold System.startNodeTypes at h
    rw [List.forall_mem_cons]
    split at h
    · rename_i hstarted
      obtain ⟨hkeep, hall⟩ := ih h
      exact ⟨hkeep, hkeep _ hstarted, hall⟩
    · split at h
      · obtain ⟨hkeep, hall⟩ := ih h
        refine ⟨fun t ht => hkeep t ?_, hkeep _ (Function.update_self ..), hall⟩
        by_cases htype : t = m.type
        · rw [htype, Function.update_self]
        · rw [Function.update_of_ne htype, ht]
      · cases h

theorem startNodeTypes_returns (ha : a.Good) (ms : List Member) (types : Nat → State) :
    ∃ types', System.startNodeTypes a types ms = .returned types' := by
  induction ms generalizing types with
  | nil => exact ⟨types, rfl⟩
  | cons m ms ih =>
    unfold System.startNodeTypes
    split
    · exact ih types
    · rw [if_pos (ha.typeStart m.type)]
      exact ih _

theorem typed_prepared {types : Nat → State} {m : Member} (hnode : Untouched .prepared m.node)
    (htype : types m.type = .started) : LifeCycle.Prepared (m.typed types) :=
  ⟨hnode.state, htype, hnode.inState, hnode.outState, hnode.wasStarted, hnode.live⟩

theorem start_member {types : Nat → State} {m m' : Member} (hnode : Untouched .prepared m.node)
    (htype : types m.type = .started) (henabled : m.enabled) :
    (m.start vts types a = .returned m' → m'.type = m.type ∧ LifeCycle.Running m'.node) ∧
      (m.start vts types a = .thrown m' → m'.node.inState = .started) := by
  unfold Member.start Member.run
  rw [if_pos henabled, nodeStart_prepared (typed_prepared hnode htype)]
  constructor
  · intro h
    obtain ⟨n, hn, rfl⟩ := map_eq_returned.mp h
    refine ⟨rfl, ?_⟩
    split at hn
    · rename_i hfails
      simp [starting, hfails] at hn
    · split at hn
      · simp only [starting, if_true, returned.injEq] at hn
        rw [← hn]
        exact ⟨.inl (.inr (.inl rfl)), rfl, rfl, rfl, rfl⟩
      · simp [starting] at hn
  · intro h
    obtain ⟨n, hn, rfl⟩ := map_eq_thrown.mp h
    split at hn
    · rename_i hfails
      simp only [starting, Option.some.injEq, hfails, if_false, thrown.injEq] at hn
      rw [← hn]
    · split at hn
      · simp [starting] at hn
      · simp only [starting, reduceCtorEq, if_false, thrown.injEq] at hn
        rw [← hn]

def startedMember (m : Member) : Member :=
  if m.enabled then { m with node := ⟨.started, .started, .started, .started, true, true, false⟩ } else m

def startedPath (p : PathLife) : PathLife := if p.enabled then { p with state := .started } else p

theorem running_active (h : LifeCycle.Running n) : Active n :=
  ⟨h.state, h.inState, h.outState, rfl, h.wasStarted⟩

/-- The state of the API or of the web server, if it is there. -/
def started (service : Option State) : Option State := service.map fun _ => .started

theorem started_eq {service : Option State} {state : State} (h : started service = some state) :
    state = .started := by
  obtain ⟨_, -, rfl⟩ := Option.map_eq_some_iff.mp h
  rfl

theorem started_eq_started_iff {service : Option State} :
    started service = some .started ↔ service ≠ none := by
  cases service <;> simp [started]

theorem startApi_eq (hs : ¬ s.Serving) : s.startApi = .returned { s with api := started s.api } := by
  unfold System.startApi started
  cases hapi : s.api with
  | none =>
    obtain ⟨state, types, nodes, paths, read, api, web⟩ := s
    cases hapi
    rfl
  | some state =>
    dsimp only
    rw [if_neg fun hstate => hs (.inl (by rw [hapi, hstate]))]
    rfl

theorem startWeb_eq (hweb : s.web = none ∨ a.webStart) :
    s.startWeb a = .returned { s with web := started s.web } := by
  unfold System.startWeb started
  cases hstate : s.web with
  | none =>
    obtain ⟨state, types, nodes, paths, read, api, web⟩ := s
    cases hstate
    rfl
  | some state =>
    dsimp only
    rw [if_pos (hweb.resolve_left (by simp [hstate]))]
    rfl

theorem startWeb_throws (hweb : ¬ (s.web = none ∨ a.webStart)) : s.startWeb a = .thrown s := by
  obtain ⟨hbuilt, hstart⟩ := not_or.mp hweb
  obtain ⟨state, hstate⟩ := Option.ne_none_iff_exists'.mp hbuilt
  unfold System.startWeb
  rw [hstate]
  dsimp only
  rw [if_neg hstart]

theorem start_returns (ha : a.Good) (hs : Ready s) (hquiet : ¬ s.Serving) :
    ∃ s', s.start vts a = .returned s' ∧ Up s' := by
  obtain ⟨types, htypes⟩ := startNodeTypes_returns ha s.nodes s.types
  obtain ⟨-, hstarted⟩ := startNodeTypes_spec htypes
  have hnodes : each (Member.start vts types a) s.nodes = .returned (s.nodes.map startedMember) := by
    apply each_map
    intro m hm
    unfold Member.start startedMember
    split
    · rename_i henabled
      rcases hs.nodes m hm with ⟨hdisabled, -⟩ | hnode
      · simp [henabled] at hdisabled
      · rw [nodeStart_prepared (typed_prepared hnode (hstarted m hm)), ha.start, if_neg (by simp [callback]),
          if_pos (ha.marked m.id)]
        unfold Member.typed
        rw [hstarted m hm]
        rfl
    · rfl
  have hpaths : each (PathLife.start a) s.paths = .returned (s.paths.map startedPath) := by
    apply each_map
    intro p hp
    unfold PathLife.start startedPath
    by_cases henabled : p.enabled
    · rw [if_neg (not_not.mpr henabled), if_neg (not_not.mpr (hs.paths p hp henabled)),
        if_pos (ha.pathStart p.id), if_pos henabled]
    · rw [if_pos henabled, if_neg henabled]
  refine ⟨{ s with types, nodes := s.nodes.map startedMember, paths := s.paths.map startedPath
                   state := .started, api := started s.api, web := started s.web }, ?_,
    ⟨fun m hm => ?_, fun _ => started_eq, fun _ => started_eq⟩⟩
  · unfold System.start System.startRest System.startInterfaces System.onNodes System.onPaths
    rw [if_neg (by simp [hs.state]), startApi_eq hquiet]
    dsimp only [Ending.andThen]
    rw [startWeb_eq (.inr ha.webStart)]
    dsimp only
    rw [htypes]
    dsimp only [Ending.map]
    rw [if_pos ha.interfacesStart]
    dsimp only
    rw [hnodes]
    dsimp only
    rw [hpaths]
  · obtain ⟨m₀, hm₀, rfl⟩ := List.mem_map.mp hm
    have htype : (startedMember m₀).type = m₀.type := by
      unfold startedMember
      split <;> rfl
    refine ⟨by rw [htype]; exact hstarted m₀ hm₀, ?_⟩
    unfold startedMember
    split
    · exact .inr (.inr (.inl (running_active ⟨.inl (.inr (.inl rfl)), rfl, rfl, rfl, rfl⟩)))
    · rename_i hdisabled
      rcases hs.nodes m₀ hm₀ with ⟨-, hnode⟩ | hnode
      · exact .inl hnode
      · exact .inr (.inl hnode)

/-! ## The destructor -/

/-- The assertions of `node_destroy` and `node_direction_destroy`. -/
structure Destroyable (n : Node) : Prop where
  state : n.state ≠ .destroyed ∧ n.state ≠ .started
  inState : n.inState ≠ .destroyed ∧ n.inState ≠ .started
  outState : n.outState ≠ .destroyed ∧ n.outState ≠ .started

theorem nodeDestroy_iff {vt : NodeType} {ret : Int} :
    (∃ r, nodeDestroy vt n ret = some r) ↔ Destroyable n := by
  unfold nodeDestroy nodeDirectionDestroy
  constructor
  · rintro ⟨r, hr⟩
    split at hr
    · rename_i hstate
      obtain ⟨inState, hin, hr⟩ := Option.bind_eq_some_iff.mp hr
      obtain ⟨outState, hout, -⟩ := Option.map_eq_some_iff.mp hr
      split at hin
      · rename_i hinState
        split at hout
        · rename_i houtState
          exact ⟨hstate, hinState, houtState⟩
        · cases hout
      · cases hin
    · cases hr
  · rintro ⟨hstate, hin, hout⟩
    rw [if_pos hstate, if_pos hin, if_pos hout]
    exact ⟨_, rfl⟩

theorem destroy_iff : (∃ s', s.destroy vts a = some s') ↔
    ¬ (s.state = .started ∨ s.Serving) ∧ ∀ m ∈ s.nodes, Destroyable m.node := by
  have hmembers : (∃ ms, s.nodes.mapM (Member.destroy vts a) = some ms) ↔
      ∀ m ∈ s.nodes, Destroyable m.node := by
    rw [Fallible.mapM_exists_iff]
    apply forall₂_congr
    intro m _
    rw [← nodeDestroy_iff]
    unfold Member.destroy
    constructor
    · rintro ⟨m', hm'⟩
      obtain ⟨r, hr, -⟩ := Option.map_eq_some_iff.mp hm'
      exact ⟨r, hr⟩
    · rintro ⟨r, hr⟩
      exact ⟨_, Option.map_eq_some_iff.mpr ⟨r, hr, rfl⟩⟩
  rw [← hmembers]
  unfold System.destroy
  split
  · rename_i hstate
    exact iff_of_false (by simp) fun h => h.1 hstate
  · rename_i hstate
    constructor
    · rintro ⟨s', hs'⟩
      obtain ⟨ms, hms, -⟩ := Option.map_eq_some_iff.mp hs'
      exact ⟨hstate, ms, hms⟩
    · rintro ⟨-, ms, hms⟩
      exact ⟨_, Option.map_eq_some_iff.mpr ⟨ms, hms, rfl⟩⟩

theorem untouched_destroyable {phase : State} (hn : Untouched phase n)
    (hphase : phase = .checked ∨ phase = .prepared) : Destroyable n := by
  constructor
  · rw [hn.state]
    rcases hphase with rfl | rfl <;> decide
  · rw [hn.inState]
    rcases hphase with rfl | rfl <;> decide
  · rw [hn.outState]
    rcases hphase with rfl | rfl <;> decide

theorem ready_destroyable (hs : Ready s) {m : Member} (hm : m ∈ s.nodes) : Destroyable m.node := by
  rcases hs.nodes m hm with ⟨-, hnode⟩ | hnode
  · exact untouched_destroyable hnode (.inl rfl)
  · exact untouched_destroyable hnode (.inr rfl)

theorem destroy_eq_none (hs : s.state ≠ .started) :
    s.destroy vts a = none ↔ s.Serving ∨ ∃ m ∈ s.nodes, ¬ Destroyable m.node := by
  have hnone : s.destroy vts a = none ↔ ¬ ∃ s', s.destroy vts a = some s' := by
    rw [← Option.ne_none_iff_exists', not_not]
  rw [hnone, destroy_iff, or_iff_right hs, not_and_or, not_not]
  simp

theorem startNodes_throws {types : Nat → State} {ms ms' : List Member} (hs : Ready s)
    (htypes : ∀ m ∈ s.nodes, types m.type = .started) (hms : s.nodes = ms)
    (h : each (Member.start vts types a) ms = .thrown ms') :
    (∃ m ∈ ms', ¬ Destroyable m.node) ∧ ∃ m ∈ s.nodes, m.enabled := by
  obtain ⟨front, m, back, front', m', rfl, rfl, -, hm⟩ := each_eq_thrown h
  have hmem : m ∈ s.nodes := by
    rw [hms]
    exact List.mem_append_right _ List.mem_cons_self
  have henabled : m.enabled := by
    unfold Member.start at hm
    split at hm
    · assumption
    · cases hm
  have hnode : Untouched .prepared m.node := by
    rcases hs.nodes m hmem with ⟨hdisabled, -⟩ | hnode
    · simp [henabled] at hdisabled
    · exact hnode
  have hstarted := (start_member hnode (htypes m hmem) henabled).2 hm
  refine ⟨⟨m', ?_, fun hd => hd.inState.2 hstarted⟩, m, hmem, henabled⟩
  exact List.mem_append_right _ List.mem_cons_self

theorem startNodes_returns {types : Nat → State} {ms : List Member} (hs : Ready s)
    (htypes : ∀ m ∈ s.nodes, types m.type = .started)
    (h : each (Member.start vts types a) s.nodes = .returned ms) :
    (∃ m ∈ ms, ¬ Destroyable m.node) ↔ ∃ m ∈ s.nodes, m.enabled := by
  constructor
  · rintro ⟨m', hm', hnot⟩
    obtain ⟨m, hm, hstart⟩ := mem_of_each h hm'
    refine ⟨m, hm, Decidable.byContradiction fun hdisabled => hnot ?_⟩
    rw [Member.start, if_neg hdisabled] at hstart
    cases hstart
    exact ready_destroyable hs hm
  · rintro ⟨m, hm, henabled⟩
    have hnode : Untouched .prepared m.node := by
      rcases hs.nodes m hm with ⟨hdisabled, -⟩ | hnode
      · simp [henabled] at hdisabled
      · exact hnode
    obtain ⟨m', hm', hstart⟩ := each_mem h hm
    obtain ⟨-, hrunning⟩ := (start_member hnode (htypes m hm) henabled).1 hstart
    exact ⟨m', hm', fun hd => hd.inState.2 hrunning.inState⟩

theorem startRest_throws (hs : Ready s) (hthrown : s.startRest vts a = .thrown s') :
    s'.api = s.api ∧ s'.web = s.web ∧ s'.state = .prepared ∧
      ((∃ m ∈ s'.nodes, ¬ Destroyable m.node) ↔
        (∃ types, System.startNodeTypes a s.types s.nodes = .returned types) ∧ a.interfacesStart ∧
          ∃ m ∈ s.nodes, m.enabled) := by
  have hready : ¬ ∃ m ∈ s.nodes, ¬ Destroyable m.node := by
    rintro ⟨m, hm, hnot⟩
    exact hnot (ready_destroyable hs hm)
  rcases andThen_eq_thrown.mp hthrown with hmap | ⟨s₁, hmap, hthrown⟩
  · -- a node type has not been started
    obtain ⟨types, htypes, rfl⟩ := map_eq_thrown.mp hmap
    rw [htypes]
    exact ⟨rfl, rfl, hs.state, iff_of_false hready (by simp)⟩
  obtain ⟨types, htypes, rfl⟩ := map_eq_returned.mp hmap
  obtain ⟨-, hstarted⟩ := startNodeTypes_spec htypes
  rw [htypes]
  unfold System.startInterfaces at hthrown
  by_cases hinterfaces : a.interfacesStart
  case neg =>
    rw [if_neg hinterfaces] at hthrown
    cases hthrown
    exact ⟨rfl, rfl, hs.state, iff_of_false hready fun h => hinterfaces h.2.1⟩
  rw [if_pos hinterfaces, Ending.andThen] at hthrown
  rcases andThen_eq_thrown.mp hthrown with hnodes | ⟨s₂, hnodes, hthrown⟩
  · obtain ⟨ms, hms, rfl⟩ := map_eq_thrown.mp hnodes
    obtain ⟨hnot, henabled⟩ := startNodes_throws hs hstarted rfl hms
    exact ⟨rfl, rfl, hs.state, iff_of_true hnot ⟨⟨_, rfl⟩, hinterfaces, henabled⟩⟩
  obtain ⟨ms, hms, rfl⟩ := map_eq_returned.mp hnodes
  rcases andThen_eq_thrown.mp hthrown with hpaths | ⟨s₃, hpaths, hthrown⟩
  · obtain ⟨ps, -, rfl⟩ := map_eq_thrown.mp hpaths
    refine ⟨rfl, rfl, hs.state, (startNodes_returns hs hstarted hms).trans ?_⟩
    simp [hinterfaces]
  · cases hthrown

/-- An exception from `SuperNode::start` can only be survived if no thread runs and no node has been
touched: what was started is not stopped. -/
theorem start_throws_iff (hs : Ready s) (hquiet : ¬ s.Serving) (hthrown : s.start vts a = .thrown s') :
    s'.destroy vts a = none ↔
      s.api ≠ none ∨ s.web ≠ none ∧ a.webStart ∨
        s.web = none ∧ (∃ types, System.startNodeTypes a s.types s.nodes = .returned types) ∧
          a.interfacesStart ∧ ∃ m ∈ s.nodes, m.enabled := by
  rw [System.start, if_neg (not_not.mpr hs.state), startApi_eq hquiet, Ending.andThen] at hthrown
  by_cases hweb : s.web = none ∨ a.webStart
  · rw [@startWeb_eq a { s with api := started s.api } hweb] at hthrown
    have hs' : Ready { s with api := started s.api, web := started s.web } :=
      ⟨hs.state, hs.nodes, hs.paths⟩
    obtain ⟨hapi', hweb', hstate, hnodes⟩ := startRest_throws hs' hthrown
    rw [destroy_eq_none (by simp [hstate]), hnodes, System.Serving, hapi', hweb',
      started_eq_started_iff, started_eq_started_iff]
    by_cases hnone : s.web = none
    · simp [hnone]
    · simp [hnone, hweb.resolve_left hnone]
  · rw [@startWeb_throws a { s with api := started s.api } hweb] at hthrown
    cases hthrown
    obtain ⟨hbuilt, hstart⟩ := not_or.mp hweb
    obtain ⟨-, hidle⟩ := not_or.mp hquiet
    rw [destroy_eq_none (by simp [hs.state]), System.Serving, started_eq_started_iff, or_assoc]
    apply or_congr_right
    rw [or_iff_right hidle]
    refine iff_of_false ?_ (by simp [hbuilt, hstart])
    rintro ⟨m, hm, hnot⟩
    exact hnot (ready_destroyable hs hm)

/-! ## Requests -/

section
variable {vt : NodeType} {op : Op} {ret : Int} {phase : State}

theorem untouched_not_stoppable (hn : Untouched phase n) (hphase : phase = .checked ∨ phase = .prepared) :
    ¬ State.stoppable n.state ∧ n.state ≠ .paused := by
  rw [hn.state]
  rcases hphase with rfl | rfl <;> decide

theorem not_started_of_not_stoppable (h : ¬ State.stoppable n.state) : n.state ≠ .started :=
  fun hstarted => h (.inr (.inl hstarted))

theorem step_untouched (hn : Untouched phase n) (hphase : phase = .checked ∨ phase = .prepared)
    (hop : op.between) : step vt n op = some n := by
  obtain ⟨hstoppable, hpaused⟩ := untouched_not_stoppable hn hphase
  have hstarted := not_started_of_not_stoppable hstoppable
  have hlive : { n with live := false } = n := by rw [← hn.live]
  cases op with
  | start ret marked => simp [Op.between] at hop
  | destroy ret => simp [Op.between] at hop
  | stop ret => simp [step, nodeStop, hstoppable, hlive]
  | pause ret => simp [step, nodePause, hstarted]
  | resume ret => simp [step, nodeResume, hpaused]
  | restart stopRet startRet => simp [step, nodeRestart, hstarted]
  | driver state => simp [step, driverSets, hstoppable, hpaused]

theorem step_live (live : Bool) (hop : op.between) (hne : ¬ ∃ ret, op = .stop ret) :
    step vt { n with live } op = (step vt n op).map fun n => { n with live } := by
  cases op with
  | start ret marked => simp [Op.between] at hop
  | destroy ret => simp [Op.between] at hop
  | stop ret => simp at hne
  | pause ret =>
    simp only [step, nodePause, Option.map_some]
    split
    · rfl
    · split <;> rfl
  | resume ret =>
    simp only [step, nodeResume, Option.map_some]
    split
    · rfl
    · split <;> rfl
  | restart stopRet startRet =>
    simp only [step, nodeRestart, Option.map_some]
    split
    · rfl
    · split
      · rfl
      · split
        · rfl
        · split <;> rfl
  | driver state =>
    simp only [step, driverSets, Option.map_some]
    split <;> rfl

theorem step_active (h : Active n) (hop : op.between) (hne : ¬ ∃ ret, op = .stop ret) :
    ∃ n', step vt n op = some n' ∧ Active n' := by
  obtain ⟨n', hn', hrunning⟩ := step_running vt h hop hne
  rw [step_live true hop hne] at hn'
  obtain ⟨n₁, hn₁, rfl⟩ := Option.map_eq_some_iff.mp hn'
  exact ⟨n₁, hn₁, hrunning⟩

theorem nodeStop_active (h : Active n) (hs : State.stoppable n.state) (hret : callback vt.stop ret = 0) :
    nodeStop vt n ret = some (⟨.stopped, n.typeState, .stopped, .stopped, n.wasStarted, false, true⟩, 0) := by
  have hin : n.inState = .started := h.inState
  have hout : n.outState = .started := h.outState
  simp [nodeStop, hs, nodeDirectionStop, hin, hout, hret]

theorem between_of_succeeds (hop : Succeeds op) (hne : ¬ ∃ ret marked, op = .start ret marked) :
    op.between := by
  cases op with
  | start ret marked => exact absurd ⟨ret, marked, rfl⟩ hne
  | destroy ret => exact hop.elim
  | stop ret => rfl
  | pause ret => rfl
  | resume ret => rfl
  | restart stopRet startRet => rfl
  | driver state => rfl

theorem start_sound {marked : Bool} (h : Sound n) (htype : n.typeState = .started) (hret : ret = 0)
    (hmarked : marked) (hstate : n.state = .prepared) :
    ∃ n', step vt n (.start ret marked) = some n' ∧ Sound n' := by
  rcases h with hn | hn | hn | hn
  · simp [hn.state] at hstate
  · have hprepared : LifeCycle.Prepared n :=
      ⟨hn.state, htype, hn.inState, hn.outState, hn.wasStarted, hn.live⟩
    have hrunning : LifeCycle.Running ⟨.started, n.typeState, .started, .started, true, true, false⟩ :=
      ⟨.inl (.inr (.inl rfl)), rfl, rfl, rfl, rfl⟩
    refine ⟨_, ?_, .inr (.inr (.inl (running_active hrunning)))⟩
    simp [step, nodeStart_prepared hprepared, hret, hmarked, callback]
  · have hactive : State.stoppable n.state ∨ n.state = .paused := hn.state
    rw [hstate] at hactive
    exact absurd hactive (by decide)
  · simp [hn.state] at hstate

theorem stop_sound (h : Active n) (hret : ret = 0) : ∃ n', step vt n (.stop ret) = some n' ∧ Sound n' := by
  have hcallback : callback vt.stop ret = 0 := by simp [callback, hret]
  have hactive : State.stoppable n.state ∨ n.state = .paused := h.state
  rcases hactive with hstate | hstate
  · have hstopped : Stopped ⟨.stopped, n.typeState, .stopped, .stopped, n.wasStarted, false, true⟩ :=
      ⟨rfl, rfl, rfl, rfl, rfl⟩
    refine ⟨_, ?_, .inr (.inr (.inr hstopped))⟩
    rw [step, nodeStop_active h hstate hcallback, Option.map_some]
  · refine ⟨{ n with live := false }, ?_, .inr (.inr (.inl h))⟩
    rw [step, nodeStop_paused hstate, Option.map_some]

theorem step_sound (h : Sound n) (htype : n.typeState = .started) (hop : Succeeds op)
    (hstart : ∀ ret marked, op = .start ret marked → n.state = .prepared) :
    ∃ n', step vt n op = some n' ∧ Sound n' := by
  by_cases hfirst : ∃ ret marked, op = .start ret marked
  · obtain ⟨ret, marked, rfl⟩ := hfirst
    exact start_sound h htype hop.1 hop.2 (hstart ret marked rfl)
  · have hbetween := between_of_succeeds hop hfirst
    rcases h with hn | hn | hn | hn
    · exact ⟨n, step_untouched hn (.inl rfl) hbetween, .inl hn⟩
    · exact ⟨n, step_untouched hn (.inr rfl) hbetween, .inr (.inl hn)⟩
    · by_cases hlast : ∃ ret, op = .stop ret
      · obtain ⟨ret, rfl⟩ := hlast
        exact stop_sound hn hop
      · obtain ⟨n', hn', hactive⟩ := step_active hn hbetween hlast
        exact ⟨n', hn', .inr (.inr (.inl hactive))⟩
    · exact ⟨n, step_stopped hn hbetween, .inr (.inr (.inr hn))⟩

theorem Sound.typed {types : Nat → State} {m : Member} (h : Sound m.node) : Sound (m.typed types) := by
  rcases h with hn | hn | hn | hn
  · exact .inl ⟨hn.state, hn.inState, hn.outState, hn.wasStarted, hn.live⟩
  · exact .inr (.inl ⟨hn.state, hn.inState, hn.outState, hn.wasStarted, hn.live⟩)
  · exact .inr (.inr (.inl ⟨hn.state, hn.inState, hn.outState, rfl, hn.wasStarted⟩))
  · exact .inr (.inr (.inr ⟨hn.state, hn.inState, hn.outState, hn.live, hn.driverStopped⟩))

end

/-! ## Events -/

theorem event_up {e : Nat × Op} (hs : Up s) (he : Succeeds e.2) (h : Allowed s e) :
    ∃ s', event vts s e = some s' ∧ Up s' := by
  obtain ⟨k, op⟩ := e
  unfold event
  cases hget : s.nodes[k]? with
  | none => exact ⟨s, rfl, hs⟩
  | some m =>
    have hmem : m ∈ s.nodes := List.mem_of_getElem? hget
    obtain ⟨htype, hsound⟩ := hs.nodes m hmem
    have hstart : ∀ ret marked, op = .start ret marked → (m.typed s.types).state = .prepared := by
      rintro ret marked rfl
      exact h m hget
    obtain ⟨n', hn', hsound'⟩ := step_sound hsound.typed htype he hstart
    refine ⟨{ s with nodes := s.nodes.set k { m with node := n' } }, ?_,
      ⟨fun m' hm' => ?_, hs.api, hs.web⟩⟩
    · dsimp only
      rw [hn', Option.map_some]
    · rcases List.mem_or_eq_of_mem_set hm' with hm' | rfl
      · exact hs.nodes m' hm'
      · exact ⟨htype, hsound'⟩

theorem event_allowed {e : Nat × Op} (h : event vts s e = some s') : Allowed s e := by
  obtain ⟨k, op⟩ := e
  cases op with
  | start ret marked =>
    intro m hget
    rw [event, hget] at h
    obtain ⟨n', hn', -⟩ := Option.map_eq_some_iff.mp h
    by_contra hstate
    have hnone : step (vts m.type) (m.typed s.types) (.start ret marked) = none := by
      simp [step, nodeStart, Member.typed, hstate]
    rw [hnone] at hn'
    cases hn'
  | stop ret => trivial
  | pause ret => trivial
  | resume ret => trivial
  | restart stopRet startRet => trivial
  | driver state => trivial
  | destroy ret => trivial

theorem up_of_event {e : Nat × Op} (hs : Up s) (he : Succeeds e.2) (h : event vts s e = some s') : Up s' := by
  obtain ⟨s₁, hs₁, hup⟩ := event_up hs he (event_allowed h)
  rw [h] at hs₁
  cases hs₁
  exact hup

theorem events_iff {events : List (Nat × Op)} (hs : Up s) (he : ∀ e ∈ events, Succeeds e.2) :
    (∃ s', Runs.run (event vts) s events = some s') ↔ Runs.Along (event vts) Allowed s events := by
  refine Runs.run_exists_iff ?_ (fun _ _ _ hs he h => up_of_event hs he h) hs he
  intro s e hs he
  constructor
  · rintro ⟨s', h⟩
    exact event_allowed h
  · intro h
    obtain ⟨s', hs', -⟩ := event_up hs he h
    exact ⟨s', hs'⟩

theorem up_of_run {events : List (Nat × Op)} (hs : Up s) (he : ∀ e ∈ events, Succeeds e.2)
    (h : Runs.run (event vts) s events = some s') : Up s' := by
  have halong : Runs.Along (event vts) (fun _ e => Succeeds e.2) s events :=
    Runs.along_of_forall (fun e hmem _ => he e hmem) s
  exact Runs.invariant (fun _ _ _ hs he h => up_of_event hs he h) hs halong h

/-! ## Coming down -/

/-- What `node_stop` has to do for the destructor. -/
structure Finishes (n n' : Node) : Prop where
  destroyable : Destroyable n' ↔ n.state ≠ .paused
  driverStopped : n.state ≠ .paused → n'.wasStarted → n'.driverStopped

theorem finishes_stopped {n' : Node} (hn : n.state ≠ .paused) (h : Stopped n') : Finishes n n' := by
  refine ⟨iff_of_true ⟨?_, ?_, ?_⟩ hn, fun _ _ => h.driverStopped⟩
  · simp [h.state]
  · simp [h.inState]
  · simp [h.outState]

theorem finishes_untouched {phase : State} (hn : Untouched phase n)
    (hphase : phase = .checked ∨ phase = .prepared) : Finishes n n := by
  have hpaused := (untouched_not_stoppable hn hphase).2
  refine ⟨iff_of_true (untouched_destroyable hn hphase) hpaused, fun _ hwas => ?_⟩
  simp [hn.wasStarted] at hwas

theorem nodeStop_sound {vt : NodeType} (h : Sound n) :
    ∃ n', nodeStop vt n 0 = some (n', 0) ∧ Finishes n n' := by
  have huntouched : ∀ phase, Untouched phase n → phase = .checked ∨ phase = .prepared →
      ∃ n', nodeStop vt n 0 = some (n', 0) ∧ Finishes n n' := by
    intro phase hn hphase
    have hlive : { n with live := false } = n := by rw [← hn.live]
    refine ⟨n, ?_, finishes_untouched hn hphase⟩
    rw [nodeStop, if_neg (untouched_not_stoppable hn hphase).1, hlive]
  rcases h with hn | hn | hn | hn
  · exact huntouched _ hn (.inl rfl)
  · exact huntouched _ hn (.inr rfl)
  · have hactive : State.stoppable n.state ∨ n.state = .paused := hn.state
    rcases hactive with hstate | hstate
    · have hnot : n.state ≠ .paused := by
        intro hpaused
        rw [hpaused] at hstate
        exact absurd hstate (by decide)
      refine ⟨_, nodeStop_active hn hstate (by simp [callback]), finishes_stopped hnot ?_⟩
      exact ⟨rfl, rfl, rfl, rfl, rfl⟩
    · refine ⟨_, nodeStop_paused hstate, ⟨iff_of_false (fun hd => hd.inState.2 ?_) (by simp [hstate]), ?_⟩⟩
      · exact hn.inState
      · exact fun hnot => absurd hstate hnot
  · exact ⟨n, nodeStop_stopped hn, finishes_stopped (by simp [hn.state]) hn⟩

theorem stopNodeTypes_returns (ha : a.Good) (ts : List Nat) (types : Nat → State) :
    ∃ types', System.stopNodeTypes a types ts = .returned types' := by
  induction ts generalizing types with
  | nil => exact ⟨types, rfl⟩
  | cons t ts ih =>
    unfold System.stopNodeTypes
    split
    · exact ih types
    · rw [if_pos (ha.typeStop t)]
      exact ih _

theorem stop_member (ha : a.Good) {m : Member} (h : Sound m.node) :
    ∃ m', m.stop vts a = .returned m' ∧ Finishes m.node m'.node := by
  obtain ⟨n', hn', hfinishes⟩ := @nodeStop_sound m.node (vts m.type) h
  refine ⟨{ m with node := n' }, ?_, hfinishes⟩
  unfold Member.stop Member.run
  rw [ha.stop, hn']
  rfl

def stopped (service : Option State) : Option State := service.map fun _ => .stopped

theorem stopApi_eq (hs : ∀ state, s.api = some state → state = .started) :
    s.stopApi = .returned { s with api := stopped s.api } := by
  unfold System.stopApi stopped
  obtain ⟨state, types, nodes, paths, read, api, web⟩ := s
  cases api with
  | none => rfl
  | some state => exact if_neg (not_not.mpr (hs state rfl))

theorem stopWeb_eq (hs : ∀ state, s.web = some state → state = .started) :
    s.stopWeb = .returned { s with web := stopped s.web } := by
  unfold System.stopWeb stopped
  obtain ⟨state, types, nodes, paths, read, api, web⟩ := s
  cases web with
  | none => rfl
  | some state => exact if_neg (not_not.mpr (hs state rfl))

theorem stopped_ne (service : Option State) : stopped service ≠ some .started := by
  cases service <;> simp [stopped]

theorem stop_returns (ha : a.Good) (hs : Up s) :
    ∃ s', s.stop vts a ts = .returned s' ∧ ¬ (s'.state = .started ∨ s'.Serving) ∧
      (∀ m ∈ s.nodes, ∃ m' ∈ s'.nodes, Finishes m.node m'.node) ∧
        ∀ m' ∈ s'.nodes, ∃ m ∈ s.nodes, Finishes m.node m'.node := by
  have hnodes : ∀ m ∈ s.nodes, ∃ m', m.stop vts a = .returned m' := by
    intro m hm
    obtain ⟨m', hm', -⟩ := stop_member ha (hs.nodes m hm).2
    exact ⟨m', hm'⟩
  have hfinishes : ∀ m m', m ∈ s.nodes → m.stop vts a = .returned m' → Finishes m.node m'.node := by
    intro m m' hm hm'
    obtain ⟨m₁, hm₁, hfinishes⟩ := stop_member ha (hs.nodes m hm).2
    rw [hm'] at hm₁
    cases hm₁
    exact hfinishes
  have hpaths : ∀ p ∈ s.paths, ∃ p', p.stop a = .returned p' := by
    intro p _
    unfold PathLife.stop
    rw [if_pos (ha.pathStop p.id)]
    split
    · exact ⟨p, rfl⟩
    · exact ⟨_, rfl⟩
  obtain ⟨ms, hms⟩ := each_returns hnodes
  obtain ⟨ps, hps⟩ := each_returns hpaths
  obtain ⟨types, htypes⟩ := stopNodeTypes_returns ha ts s.types
  refine ⟨{ s with state := .stopped, nodes := ms, paths := ps, types
                   api := stopped s.api, web := stopped s.web }, ?_, ?_, ?_, ?_⟩
  · unfold System.stop System.onNodes System.onPaths System.stopInterfaces
    rw [hms]
    dsimp only [Ending.map, Ending.andThen]
    rw [hps]
    dsimp only
    rw [htypes]
    dsimp only
    rw [if_pos ha.interfacesStop]
    dsimp only
    rw [@stopApi_eq { s with types, nodes := ms, paths := ps } hs.api]
    dsimp only
    rw [@stopWeb_eq { s with types, nodes := ms, paths := ps, api := stopped s.api } hs.web]
  · rintro (hstate | hapi | hweb)
    · cases hstate
    · exact stopped_ne _ hapi
    · exact stopped_ne _ hweb
  · intro m hm
    obtain ⟨m', hm', hstop⟩ := each_mem hms hm
    exact ⟨m', hm', hfinishes m m' hm hstop⟩
  · intro m' hm'
    obtain ⟨m, hm, hstop⟩ := mem_of_each hms hm'
    exact ⟨m, hm, hfinishes m m' hm hstop⟩

theorem comeDown_iff (ha : a.Good) (hs : Up s) :
    (∃ s', comeDown vts a ts s = some s') ↔ ∀ m ∈ s.nodes, m.node.state ≠ .paused := by
  have hup : Up { s with state := .stopping } := ⟨hs.nodes, hs.api, hs.web⟩
  obtain ⟨s₁, hs₁, hstate, hto, hfrom⟩ := @stop_returns vts a ts _ ha hup
  unfold comeDown
  rw [hs₁]
  dsimp only
  rw [destroy_iff]
  constructor
  · rintro ⟨-, hall⟩ m hm
    obtain ⟨m', hm', hfinishes⟩ := hto m hm
    exact hfinishes.destroyable.mp (hall m' hm')
  · intro hall
    refine ⟨hstate, fun m' hm' => ?_⟩
    obtain ⟨m, hm, hfinishes⟩ := hfrom m' hm'
    exact hfinishes.destroyable.mpr (hall m hm)

theorem destroy_keeps {m m' : Member} (h : m.destroy vts a = some m') :
    m'.node.wasStarted = m.node.wasStarted ∧ m'.node.driverStopped = m.node.driverStopped := by
  obtain ⟨r, hr, rfl⟩ := Option.map_eq_some_iff.mp h
  unfold nodeDestroy at hr
  split at hr
  · obtain ⟨inState, -, hr⟩ := Option.bind_eq_some_iff.mp hr
    obtain ⟨outState, -, rfl⟩ := Option.map_eq_some_iff.mp hr
    dsimp only
    split <;> exact ⟨rfl, rfl⟩
  · cases hr

theorem comeDown_stops (ha : a.Good) (hs : Up s) (h : comeDown vts a ts s = some s') :
    ∀ m ∈ s'.nodes, m.node.wasStarted → m.node.driverStopped := by
  have hpaused := (comeDown_iff ha hs).mp ⟨s', h⟩
  have hup : Up { s with state := .stopping } := ⟨hs.nodes, hs.api, hs.web⟩
  obtain ⟨s₁, hs₁, hstate, -, hfrom⟩ := @stop_returns vts a ts _ ha hup
  rw [comeDown, hs₁] at h
  dsimp only at h
  rw [System.destroy, if_neg hstate] at h
  obtain ⟨ms, hms, rfl⟩ := Option.map_eq_some_iff.mp h
  intro m' hm' hwas
  obtain ⟨m₁, hm₁, hdestroy⟩ := (Fallible.mapM_members hms).1 m' hm'
  obtain ⟨hsame, hsameDriver⟩ := destroy_keeps hdestroy
  obtain ⟨m, hm, hfinishes⟩ := hfrom m₁ hm₁
  rw [hsameDriver]
  exact hfinishes.driverStopped (hpaused m hm) (hsame ▸ hwas)

/-! ## An example -/

def plain : NodeType := ⟨true, true, true, true, false, true⟩

def fine : Answers where
  check _ := none
  pathCheck _ := true
  memoryInit := true
  prepare _ := none
  pathPrepare _ := true
  webStart := true
  typeStart _ := 0
  interfacesStart := true
  start _ := 0
  marked _ := true
  pathStart _ := true
  stop _ := 0
  pathStop _ := 0
  typeStop _ := 0
  interfacesStop := true
  destroy _ := 0

def parsedMember (id : Nat) : Member :=
  ⟨id, 1, true, ⟨.parsed, .initialized, .parsed, .parsed, false, false, false⟩⟩

/-- Two nodes and a path from the first one to the second one. A third node is not used. -/
def twoNodes : System where
  state := .parsed
  types _ := .initialized
  nodes := [parsedMember 0, parsedMember 1, parsedMember 2]
  paths := [⟨0, true, [⟨0, true⟩], [1], .parsed⟩]
  read := []
  api := some .initialized
  web := some .initialized

theorem fine_good : fine.Good := by
  constructor
  · constructor <;> simp [fine]
  all_goals simp [fine]

theorem twoNodes_parsed : Parsed twoNodes := by
  refine ⟨rfl, fun m hm => ?_, by decide, by decide, rfl, by decide⟩
  simp only [twoNodes, List.mem_cons, List.not_mem_nil, or_false] at hm
  rcases hm with rfl | rfl | rfl
  all_goals exact ⟨rfl, rfl, rfl, rfl, rfl⟩

/-- The third node is started by a request, and the first one is paused and resumed. -/
def someRequests : List (Nat × Op) := [(0, .pause 0), (2, .start 0 true), (0, .resume 0)]

theorem someRequests_succeed : ∀ e ∈ someRequests, Succeeds e.2 := by
  simp [someRequests, Succeeds]

/-! ## Whole lives -/

theorem comeUp_spec (ha : a.Good) (hs : Parsed s) :
    (∃ s', comeUp vts a s = .returned s' ∧ Up s' ∧ MapsEnabled s) ∨
      comeUp vts a s = .aborted ∧ ¬ MapsEnabled s := by
  have hcheck := check_returns ha.toPrepares hs
  unfold comeUp
  rw [hcheck]
  dsimp only [Ending.andThen]
  rcases prepare_spec ha.toPrepares hs with ⟨s₁, hs₁, hready, hquiet, hmaps⟩ | ⟨hbad, hmaps⟩
  · obtain ⟨s₂, hs₂, hup⟩ := @start_returns vts a s₁ ha hready hquiet
    rw [hs₁]
    exact .inl ⟨s₂, hs₂, hup, hmaps⟩
  · rw [hbad]
    exact .inr ⟨rfl, hmaps⟩

/-- If all callbacks succeed: no assertion fails in the whole life of a configuration if and only if
its paths map nodes that are enabled, requests start nodes that were not started before, and no node is
paused at the end. -/
theorem life_completes_iff {events : List (Nat × Op)} (ha : a.Good) (hs : Parsed s)
    (he : ∀ e ∈ events, Succeeds e.2) :
    (∃ s', life vts a ts events s = some s') ↔ MapsEnabled s ∧ ∀ s₁, comeUp vts a s = .returned s₁ →
      Runs.Along (event vts) Allowed s₁ events ∧
        ∀ s₂, Runs.run (event vts) s₁ events = some s₂ → ∀ m ∈ s₂.nodes, m.node.state ≠ .paused := by
  unfold life
  rcases @comeUp_spec vts a s ha hs with ⟨s₁, hs₁, hup, hmaps⟩ | ⟨hbad, hmaps⟩
  · rw [hs₁]
    simp only [hmaps, true_and, Ending.returned.injEq, forall_eq']
    rw [← events_iff hup he]
    constructor
    · rintro ⟨s', h⟩
      obtain ⟨s₂, hs₂, hdown⟩ := Option.bind_eq_some_iff.mp h
      have hup₂ : Up s₂ := up_of_run hup he hs₂
      refine ⟨⟨s₂, hs₂⟩, fun s₃ hs₃ => ?_⟩
      rw [hs₂] at hs₃
      cases hs₃
      exact (comeDown_iff ha hup₂).mp ⟨s', hdown⟩
    · rintro ⟨⟨s₂, hs₂⟩, hall⟩
      have hup₂ : Up s₂ := up_of_run hup he hs₂
      rw [hs₂, Option.bind_some]
      exact (comeDown_iff ha hup₂).mpr (hall s₂ hs₂)
  · rw [hbad]
    exact iff_of_false (by simp) fun h => hmaps h.1

theorem life_completes_example :
    (∃ s', life (fun _ => plain) fine [0, 1] someRequests twoNodes = some s') ∧ MapsEnabled twoNodes := by
  have h : ∃ s', life (fun _ => plain) fine [0, 1] someRequests twoNodes = some s' := ⟨_, rfl⟩
  exact ⟨h, ((life_completes_iff fine_good twoNodes_parsed someRequests_succeed).mp h).1⟩

/-- Each driver that was started, by the super node or by a request, has been stopped at the end. -/
theorem life_stops_drivers {events : List (Nat × Op)} (ha : a.Good) (hs : Parsed s)
    (he : ∀ e ∈ events, Succeeds e.2) (h : life vts a ts events s = some s') :
    ∀ m ∈ s'.nodes, m.node.wasStarted → m.node.driverStopped := by
  unfold life at h
  rcases @comeUp_spec vts a s ha hs with ⟨s₁, hs₁, hup, hmaps⟩ | ⟨hbad, hmaps⟩
  · rw [hs₁] at h
    obtain ⟨s₂, hs₂, hdown⟩ := Option.bind_eq_some_iff.mp h
    exact comeDown_stops ha (up_of_run hup he hs₂) hdown
  · rw [hbad] at h
    cases h

theorem life_stops_drivers_example : ∃ s', life (fun _ => plain) fine [0, 1] someRequests twoNodes = some s' ∧
    ∀ m ∈ s'.nodes, m.node.wasStarted → m.node.driverStopped := by
  have h : ∃ s', life (fun _ => plain) fine [0, 1] someRequests twoNodes = some s' := ⟨_, rfl⟩
  obtain ⟨s', hs'⟩ := h
  exact ⟨s', hs', life_stops_drivers fine_good twoNodes_parsed someRequests_succeed hs'⟩

/-- When `SuperNode::start` throws, the program ends in the destructor if it has the API, or a web
server that runs. If it has neither, it ends there unless it was for a node type or an interface, or no
node is enabled. -/
theorem failed_start_aborts_iff {s₁ s₂ : System} {events : List (Nat × Op)} (ha : a.Prepares) (hs : Parsed s)
    (hs₁ : (s.check a).andThen (System.prepare a) = .returned s₁) (hs₂ : s₁.start vts a = .thrown s₂) :
    life vts a ts events s = none ↔
      s₁.api ≠ none ∨ s₁.web ≠ none ∧ a.webStart ∨
        s₁.web = none ∧ (∃ types, System.startNodeTypes a s₁.types s₁.nodes = .returned types) ∧
          a.interfacesStart ∧ ∃ m ∈ s₁.nodes, m.enabled := by
  obtain ⟨hready, hquiet⟩ : Ready s₁ ∧ ¬ s₁.Serving := by
    rw [check_returns ha hs, Ending.andThen] at hs₁
    rcases prepare_spec ha hs with ⟨s', hs', hready, hquiet, -⟩ | ⟨hbad, -⟩
    · rw [hs'] at hs₁
      cases hs₁
      exact ⟨hready, hquiet⟩
    · rw [hbad] at hs₁
      cases hs₁
  rw [← start_throws_iff hready hquiet hs₂, life, comeUp, hs₁, Ending.andThen, hs₂]

/-- The same in a build without the API and the web server. -/
def serverless : System := { twoNodes with api := none, web := none }

theorem serverless_parsed : Parsed serverless :=
  { twoNodes_parsed with quiet := by decide }

theorem failed_start_example :
    life (fun _ => plain) { fine with start := fun _ => -1 } [0, 1] someRequests serverless = none := by
  have hprepares : Answers.Prepares { fine with start := fun _ => -1 } := { fine_good.toPrepares with }
  refine (failed_start_aborts_iff hprepares serverless_parsed rfl rfl).mpr (.inr (.inr ⟨rfl, ⟨_, rfl⟩, rfl, ?_⟩))
  exact ⟨_, List.mem_cons_self, rfl⟩

end

end VillasNode.SuperNodeLife
