import VillasNode.Lib.Fallible
import VillasNode.Path.Prepare
import VillasNode.Path.Sizing

/-!
# How a path is brought up

`path_parse`, `path_check`, `path_prepare` and `path_start` in the order in
which the super node calls them, as far as they decide which thread function
the path gets. `path_check` counts the sources of the path, but they are made
by `path_prepare`, and the setting `poll` is detected there too.
-/

namespace VillasNode.PollMode

/-! ## Settings -/

/-- `poll` is -1 until the configuration or `path_prepare` sets it. -/
inductive PollSetting where
  | auto
  | off
  | on
deriving DecidableEq

def PollSetting.toInt : PollSetting → Int
  | .auto => -1
  | .off => 0
  | .on => 1

/-- What is thrown, with the node that the text names, or a result that is not 0. -/
inductive PathError where
  | configError (id fmt : String)
  | runtimeError (fmt : String) (node : Option Nat)
  | hook
  | mapping
  | bitset
  | assertion
  | returned
deriving DecidableEq

/-- The configuration of a path after `json_unpack_ex`. The lists of nodes are `none` where they do
not parse. -/
structure PathConfig where
  mode : Option String
  uuid : Option String
  mappings : Option (List MappingEntry)
  destinations : Option (List Nat)
  /-- `none` for an entry that is no string. -/
  mask : List (Option String)
  poll : PollSetting
  rate : ℚ
  queuelen : Nat

structure NodeInfo where
  enabled : Bool
  read : Bool
  write : Bool
  /-- The descriptors that `poll_fds` gives, if the node type has it. -/
  pollFds : Option (List Int)

/-- What the path finds: the nodes, and the results of the calls into other modules. -/
structure Env where
  uuidParse : String → Bool
  lookup : String → Option Nat
  node : Nat → NodeInfo
  /-- The internal loopback of a secondary source. -/
  loopback : Nat → NodeInfo
  /-- `n->out.path` is set. -/
  outPath : Nat → Bool
  /-- The node is a source of another path. -/
  used : Nat → Bool
  isPow2 : Nat → Bool
  log2Ceil : Nat → Nat
  mappingEntryPrepare : MappingEntry → Bool
  statsType : Nat → SignalType
  inputSignals : Nat → List (Option SignalHooks.Signal)
  pathSourceInit : PreparedSource → Bool
  pathDestinationPrepare : Nat → Nat → Bool
  timeoutFd : Int
  poolInit : Nat → Bool
  sampleAlloc : Bool
  pthreadCreate : Bool
  hookListParse : Bool
  hookListCheck : Bool
  hookListPrepare : Bool
  hookListStart : Bool

structure VPath where
  state : State
  mappings : List MappingEntry
  destinations : List Nat
  maskList : List Nat
  sources : List PreparedSource
  mask : Finset Nat
  poll : PollSetting
  rate : ℚ
  queuelen : Nat
  pollFds : List Int

inductive ThreadFunction where
  | pathRunSingle
  | pathRunPoll
deriving DecidableEq

/-- `throw e` or `return -1` unless `ok`. -/
def check (ok : Bool) (e : PathError) : Except PathError Unit := if ok then .ok () else .error e

def orThrow {α : Type} (x : Option α) (e : PathError) : Except PathError α :=
  match x with
  | some a => .ok a
  | none => .error e

/-! ## Parsing -/

def parseDestinations (outPath : Nat → Bool) : List Nat → Except PathError Unit
  | [] => .ok ()
  | n :: ns =>
    if outPath n then
      .error (.configError "node-config-path"
        "Every node must only be used by a single path as destination")
    else parseDestinations (Function.update outPath n true) ns

def pathParseMask (lookup : String → Option Nat) : List (Option String) → Except PathError (List Nat)
  | [] => .ok []
  | entry :: mask => do
    let name ← orThrow entry (.configError "node-config-path-mask"
      "The 'mask' setting must be a list of node names")
    let n ← orThrow (lookup name) (.configError "node-config-path-mask"
      "The 'mask' entry '{}' is not a valid node name")
    let ns ← pathParseMask lookup mask
    return n :: ns

def pathParse (env : Env) (cfg : PathConfig) : Except PathError VPath := do
  check (cfg.mode.all fun mode => mode = "any" || mode = "all")
    (.configError "node-config-path" "Invalid path mode '{}'")
  check (cfg.uuid.all env.uuidParse)
    (.configError "node-config-path-uuid" "Failed to parse UUID: {}")
  let mappings ← orThrow cfg.mappings
    (.configError "node-config-path-in" "Failed to parse input mapping of path {}")
  let destinations ← orThrow cfg.destinations
    (.configError "node-config-path-out" "Failed to parse output nodes")
  parseDestinations env.outPath destinations
  check env.hookListParse .hook
  let maskList ← pathParseMask env.lookup cfg.mask
  return { state := .parsed, mappings, destinations, maskList, sources := [], mask := ∅
           poll := cfg.poll, rate := cfg.rate, queuelen := cfg.queuelen, pollFds := [] }

/-! ## Checking -/

/-- `ps->node` -/
def sourceNode (env : Env) (ps : PreparedSource) : NodeInfo :=
  match ps.type with
  | .master => env.node ps.node
  | .secondary => env.loopback ps.node

def checkPollFds (env : Env) : List PreparedSource → Except PathError Unit
  | [] => .ok ()
  | ps :: pss => do
    check (sourceNode env ps).pollFds.isSome
      (.runtimeError "Node {} can not be used in polling mode with path {}" (some ps.node))
    checkPollFds env pss

def checkSources (env : Env) : List PreparedSource → Except PathError Unit
  | [] => .ok ()
  | ps :: pss => do
    check (sourceNode env ps).enabled (.runtimeError "Source {} is not enabled" (some ps.node))
    check (sourceNode env ps).read
      (.runtimeError "Node {} is not supported as a source for a path" (some ps.node))
    checkSources env pss

def checkDestinations (env : Env) : List Nat → Except PathError Unit
  | [] => .ok ()
  | n :: ns => do
    check (env.node n).enabled (.runtimeError "Destination {} is not enabled" (some n))
    check (env.node n).write
      (.runtimeError "Destiation node {} is not supported as a sink for path " (some n))
    checkDestinations env ns

def pollSourcesError : PathError :=
  .runtimeError "Setting 'poll' must be active if the path has more than one source" none

def pollRateError : PathError :=
  .runtimeError "Setting 'poll' must be activated when used together with setting 'rate'" none

def checkPoll (env : Env) (p : VPath) : Except PathError Unit :=
  if 0 < p.poll.toInt then
    if p.rate ≤ 0 then checkPollFds env p.sources else .ok ()
  else do
    check (p.sources.length ≤ 1) pollSourcesError
    check (p.rate ≤ 0) pollRateError

def pathCheck (env : Env) (p : VPath) : Except PathError VPath := do
  check (p.state ≠ .destroyed) .assertion
  check (0 ≤ p.rate)
    (.runtimeError "Setting 'rate' of path {} must be a positive number." none)
  checkPoll env p
  let queuelen := if env.isPow2 p.queuelen then p.queuelen else env.log2Ceil p.queuelen
  checkSources env p.sources
  checkDestinations env p.destinations
  check env.hookListCheck .hook
  return { p with queuelen, state := .checked }

/-! ## Preparing -/

def prepareDestinations (env : Env) (queuelen : Nat) : List Nat → Except PathError Unit
  | [] => .ok ()
  | n :: ns => do
    check (env.pathDestinationPrepare n queuelen) .returned
    prepareDestinations env queuelen ns

/-- The autodetection of `path_prepare`. -/
def detectPoll (p : VPath) : PollSetting :=
  if p.poll = .auto then
    if 0 < p.rate then .on
    else if 1 < p.sources.length then .on
    else .off
  else p.poll

def preparePollFds (env : Env) : List PreparedSource → Except PathError (List Int)
  | [] => .ok []
  | ps :: pss => do
    let fds := (sourceNode env ps).pollFds.getD []
    check (fds ≠ [] ∧ ∀ fd ∈ fds, 0 ≤ fd)
      (.runtimeError "Failed to get file descriptor for node {}" (some ps.node))
    let rest ← preparePollFds env pss
    return fds ++ rest

def pathPreparePoll (env : Env) (p : VPath) : Except PathError VPath := do
  let fds ← preparePollFds env p.sources
  if 0 < p.rate then
    check (0 ≤ env.timeoutFd) .returned
    return { p with pollFds := fds ++ [env.timeoutFd] }
  else
    return { p with pollFds := fds }

/-- `if (p->poll)` around it. -/
def preparePoll (env : Env) (p : VPath) : Except PathError VPath :=
  if p.poll ≠ .off then pathPreparePoll env p else .ok p

/-- The path with its sources. The signals of the path are made in the same loop. -/
def prepareMappings (env : Env) (p : VPath) : Except PathError VPath := do
  check (p.mappings.all env.mappingEntryPrepare) .mapping
  let mappings := Capacity.mappingListPrepare 0 p.mappings
  let pp ← orThrow (VillasNode.pathPrepare p.maskList env.used mappings) .bitset
  check (pp.sources.all env.pathSourceInit) .returned
  check (Capacity.pathSignals env.statsType env.inputSignals [] mappings).isSome .returned
  return { p with mappings, sources := pp.sources, mask := pp.mask }

def pathPrepare (env : Env) (p : VPath) : Except PathError VPath := do
  check (p.state = .checked) .assertion
  let p ← prepareMappings env p
  prepareDestinations env p.queuelen p.destinations
  let p := { p with poll := detectPoll p }
  let p ← preparePoll env p
  check env.hookListPrepare .hook
  check (env.poolInit (max 1 p.destinations.length * p.queuelen)) .returned
  return { p with state := .prepared }

/-! ## Starting -/

def pathStart (env : Env) (p : VPath) : Except PathError (VPath × ThreadFunction) := do
  check (p.state = .prepared) .assertion
  check env.hookListStart .hook
  check env.sampleAlloc .returned
  check env.pthreadCreate .returned
  return ({ p with state := .started }, if p.poll ≠ .off then .pathRunPoll else .pathRunSingle)

/-- The path is parsed, checked, prepared and started. -/
def bringUp (env : Env) (cfg : PathConfig) : Except PathError (VPath × ThreadFunction) := do
  let p ← pathParse env cfg
  let p ← pathCheck env p
  let p ← pathPrepare env p
  pathStart env p

/-! ## What decides the thread -/

open Fallible

variable {env : Env} {cfg : PathConfig} {p p' : VPath} {t : ThreadFunction}

/-- Rejected because `poll` is not set. -/
def MissingPoll (e : PathError) : Prop := e = pollSourcesError ∨ e = pollRateError

instance (e : PathError) : Decidable (MissingPoll e) := inferInstanceAs (Decidable (_ ∨ _))

theorem check_eq_ok {b : Bool} {e : PathError} {u : Unit} : check b e = .ok u ↔ b = true := by
  unfold check
  split
  · rename_i h
    simp [h]
  · rename_i h
    simp [h]

theorem orThrow_eq_ok {α : Type} {x : Option α} {e : PathError} {a : α} :
    orThrow x e = .ok a ↔ x = some a := by
  unfold orThrow
  split
  · simp
  · simp

theorem mappingListPrepare_nodes (ml : List MappingEntry) (off : Nat) :
    (Capacity.mappingListPrepare off ml).map MappingEntry.node = ml.map MappingEntry.node := by
  induction ml generalizing off with
  | nil => rfl
  | cons me ml ih =>
    unfold Capacity.mappingListPrepare
    rw [List.map_cons, List.map_cons, ih]

theorem prepareMappings_spec (h : prepareMappings env p = .ok p') :
    p'.sources.length = (p.mappings.map MappingEntry.node).toFinset.card ∧
      p' = { p with mappings := p'.mappings, sources := p'.sources, mask := p'.mask } := by
  unfold prepareMappings at h
  simp only [bind_eq_ok, check_eq_ok, orThrow_eq_ok] at h
  obtain ⟨_, _, pp, hpp, _, _, _, _, h⟩ := h
  cases h
  have hinit : PreparedFor p.maskList [] ⟨[], ∅⟩ := by
    refine ⟨.nil, ?_, ?_⟩
    · simp
    · simp
  have hspec := (prepareSources_spec _ hinit hpp).sources.length
  rw [List.length_map, List.nil_append, mappingListPrepare_nodes] at hspec
  exact ⟨hspec, rfl⟩

theorem preparePoll_spec (h : preparePoll env p = .ok p') : p' = { p with pollFds := p'.pollFds } := by
  unfold preparePoll pathPreparePoll at h
  split at h
  · simp only [bind_eq_ok] at h
    obtain ⟨fds, _, h⟩ := h
    split at h
    · simp only [bind_eq_ok] at h
      obtain ⟨_, _, h⟩ := h
      cases h
      rfl
    · cases h
      rfl
  · cases h
    rfl

theorem pathPrepare_spec (h : pathPrepare env p = .ok p') :
    p'.sources.length = (p.mappings.map MappingEntry.node).toFinset.card ∧ p'.rate = p.rate ∧
      p'.poll = detectPoll { p with sources := p'.sources } := by
  unfold pathPrepare at h
  simp only [bind_eq_ok, check_eq_ok] at h
  obtain ⟨_, _, q, hq, _, _, r, hr, _, _, _, _, h⟩ := h
  obtain ⟨hlen, hq⟩ := prepareMappings_spec hq
  cases h
  rw [preparePoll_spec hr]
  dsimp only
  rw [hq]
  exact ⟨hlen, rfl, rfl⟩

/-- Two entries of the mapping name different nodes. -/
def TwoNodes (cfg : PathConfig) : Prop :=
  ∃ ml, cfg.mappings = some ml ∧ ∃ me ∈ ml, ∃ me' ∈ ml, me.node ≠ me'.node

/-- `path_run_poll` is started where it is needed, and where it would have been detected its absence
is no reason to reject the path. -/
structure Agrees (env : Env) (cfg : PathConfig) : Prop where
  thread : ∀ p t, bringUp env cfg = .ok (p, t) → 1 < p.sources.length ∨ 0 < p.rate → t = .pathRunPoll
  detected : cfg.poll = .auto → 0 < cfg.rate ∨ TwoNodes cfg → Fails (¬ MissingPoll ·) (bringUp env cfg)

/-- Nodes that are enabled, read, write and have a descriptor, and calls that succeed. -/
def plainEnv : Env where
  uuidParse _ := true
  lookup _ := none
  node _ := ⟨true, true, true, some [3]⟩
  loopback _ := ⟨true, true, true, some [4]⟩
  outPath _ := false
  used _ := false
  isPow2 n := n.isPowerOfTwo
  log2Ceil n := n.nextPowerOfTwo
  mappingEntryPrepare _ := true
  statsType _ := .float
  inputSignals _ := [some ⟨.float, .new 0⟩]
  pathSourceInit _ := true
  pathDestinationPrepare _ _ := true
  timeoutFd := 5
  poolInit _ := true
  sampleAlloc := true
  pthreadCreate := true
  hookListParse := true
  hookListCheck := true
  hookListPrepare := true
  hookListStart := true

end VillasNode.PollMode
