import VillasNode.Lib.Runs
import VillasNode.Path.Conservation

/-!
# The life of WebSocket connections

`websocket_protocol_cb`, `websocket_write` and `websocket_stop` of
`lib/nodes/websocket.cpp`, one call after the other. libwebsockets establishes
a connection, calls back for it until a callback fails or the peer goes away,
and closes it once. What a connection receives goes to its node and is left out.
-/

namespace VillasNode.WebsocketConnections

/-- `websocket_connection::State` -/
inductive State where
  | destroyed
  | initialized
  | connecting
  | reconnecting
  | established
  | shutdown
  | error
deriving DecidableEq

inductive Mode where
  | client
  | server
deriving DecidableEq

/-- `closing` is after a callback that returned something else than 0. -/
inductive Phase where
  | open
  | closing
  | closed
deriving DecidableEq

structure Connection where
  state : State
  mode : Mode
  node : Option Nat
  queue : List SampleId
  /-- It is allocated. -/
  formatter : Bool
  /-- What `buffers.recv` holds. `none` if the buffers are not allocated. -/
  recv : Option (List UInt8)
  phase : Phase
  /-- `websocket_connection_init` has succeeded. -/
  inited : Bool
  /-- How often it was passed to `websocket_connection_destroy`. -/
  destroyed : Nat
deriving DecidableEq

structure System where
  conns : List Connection
  /-- `connections` -/
  list : List Nat
  refcnt : SampleId → Int

/-- The nodes by their names, and the formats. -/
structure Registry where
  instances : List Char → Option Nat
  formats : List Char → Bool

inductive Origin where
  | client (n : Nat)
  /-- What `lws_hdr_copy` leaves in `uri`. -/
  | server (uri : List Char)
deriving DecidableEq

inductive Event where
  /-- `ret` is the result of `queue_init`. -/
  | established (origin : Origin) (ret : Int)
  /-- `cpys` are the copies that `websocket_write` has made. -/
  | write (n : Nat) (cpys : List SampleId)
  /-- `ret` is the result of `lws_write`. -/
  | writeable (c : Nat) (ret : Int)
  /-- `recvd` is the result of `sscan`. -/
  | receive (c : Nat) (first final : Bool) (data : List UInt8) (recvd : Int)
  | stop (n : Nat)
  | closed (c : Nat)
deriving DecidableEq

/-- `DEFAULT_QUEUE_LENGTH` -/
def queueLength : Nat := 1024

/-- `cnt` of `websocket_protocol_cb`. -/
def pullCount : Nat := 128

/-! ## The functions -/

def incref (refcnt : SampleId → Int) (smps : List SampleId) (s : SampleId) : Int :=
  refcnt s + smps.count s

def decref (refcnt : SampleId → Int) (smps : List SampleId) (s : SampleId) : Int :=
  refcnt s - smps.count s

/-- `websocket_connection_init` after `queue_init`. -/
def Connection.init (c : Connection) : Connection :=
  { c with queue := [], recv := some [], state := .initialized, inited := true }

def Connection.destroy (c : Connection) : Connection :=
  { c with queue := [], formatter := false, recv := none, state := .destroyed
           destroyed := c.destroyed + 1 }

/-- A connection of a client is as `websocket_start` leaves it, one of a server is zeroed. -/
def Origin.connection : Origin → Connection
  | .client n => ⟨.established, .client, some n, [], true, none, .open, false, 0⟩
  | .server _ => ⟨.established, .server, none, [], false, none, .open, false, 0⟩

/-- `strtok_r` with the delimiters `/` and `.` and then for the rest. -/
def tokens (uri : List Char) : List Char × List Char :=
  let delim := fun c => c == '/' || c == '.'
  let rest := uri.dropWhile delim
  (rest.takeWhile fun c => !delim c, (rest.dropWhile fun c => !delim c).drop 1)

/-- The connection with its node and its formatter. Without a node `websocket_connection_close` has
no logger, and `FormatFactory::make` throws for a format that it does not know. -/
def setup (w : Registry) (origin : Origin) : Option Connection :=
  match origin with
  | .client _ => some origin.connection
  | .server uri =>
    let (node, format) := tokens uri
    if uri = [] ∨ node = [] then none
    else
      let c := { origin.connection with node := w.instances node }
      let format := if format = [] then "villas.web".toList else format
      if c.node ≠ none ∧ w.formats format then some { c with formatter := true } else none

def System.established (w : Registry) (s : System) (origin : Origin) (ret : Int) : Option System :=
  (setup w origin).map fun c =>
    if ret = 0 then { s with conns := s.conns ++ [c.init], list := s.list ++ [s.conns.length] }
    else { s with conns := s.conns ++ [{ c with phase := .closing }] }

/-- `websocket_connection_write` for a connection of the node. -/
def System.connectionWrite (n : Nat) (smps : List SampleId) (s : System) (c : Nat) : System :=
  match s.conns[c]? with
  | none => s
  | some x =>
    if x.node = some n ∧ x.state = .initialized then
      let pushed := smps.take (queueLength - x.queue.length)
      { s with conns := s.conns.set c { x with queue := x.queue ++ pushed }
               refcnt := incref s.refcnt pushed }
    else s

/-- The loop of `websocket_stop` for a connection. -/
def System.shutdown (n : Nat) (s : System) (c : Nat) : System :=
  match s.conns[c]? with
  | none => s
  | some x => if x.node = some n then { s with conns := s.conns.set c { x with state := .shutdown } } else s

def System.writeable (s : System) (c : Nat) (x : Connection) (ret : Int) : System :=
  let pulled := x.queue.take pullCount
  let queue := x.queue.drop pullCount
  let failed := pulled ≠ [] ∧ ret < 0
  let phase := if failed ∨ queue = [] ∧ x.state = .shutdown then .closing else .open
  { s with conns := s.conns.set c { x with queue, phase }, refcnt := decref s.refcnt pulled }

def Connection.receive (x : Connection) (first final : Bool) (data : List UInt8) (recvd : Int) :
    Connection :=
  let recv := (if first then [] else x.recv.getD []) ++ data
  if !final ∨ recvd < 0 then { x with recv := some recv }
  else { x with recv := some [], phase := if x.state = .shutdown then .closing else .open }

/-- The log message is about the node. `delete c` is not seen here. -/
def System.closed (s : System) (c : Nat) (x : Connection) : Option System :=
  if x.node = none then none
  else
    let list := s.list.filter (· ≠ c)
    if x.state = .initialized then
      some { conns := s.conns.set c { x.destroy with phase := .closed }, list
             refcnt := decref s.refcnt x.queue }
    else some { s with conns := s.conns.set c { x with phase := .closed }, list }

/-- A call that throws or has no defined behaviour gives `none`. -/
def step (w : Registry) (s : System) : Event → Option System
  | .established origin ret => s.established w origin ret
  | .write n cpys => some (s.list.foldl (System.connectionWrite n cpys) s)
  | .writeable c ret =>
    s.conns[c]?.bind fun x => if x.phase = .open then some (s.writeable c x ret) else none
  | .receive c first final data recvd =>
    s.conns[c]?.bind fun x =>
      if x.phase = .open then
        some { s with conns := s.conns.set c (x.receive first final data recvd) }
      else none
  | .stop n => some (s.list.foldl (System.shutdown n) s)
  | .closed c => s.conns[c]?.bind fun x => if x.phase ≠ .closed then s.closed c x else none

/-- After `websocket_type_start`. -/
def start (refcnt : SampleId → Int) : System := ⟨[], [], refcnt⟩

/-! ## What is released -/

def queued : List Connection → Multiset SampleId
  | [] => 0
  | c :: cs => (c.queue : Multiset SampleId) + queued cs

/-- The connections that a call reads or writes. -/
def accessed (s : System) : Event → List Nat
  | .established .. => []
  | .write .. | .stop _ => s.list
  | .writeable c _ => [c]
  | .receive c _ _ _ _ => [c]
  | .closed c => [c]

/-- A connection that was initialized is destroyed exactly once, when it is closed, and nobody uses
it afterwards. Only the queues of the others have references, beside `R`. -/
structure Released (w : Registry) (R : SampleId → Int) (s : System) : Prop where
  once : ∀ c ∈ s.conns, c.inited → c.phase = .closed →
    c.destroyed = 1 ∧ c.queue = [] ∧ c.formatter = false ∧ c.recv = none
  early : ∀ c ∈ s.conns, c.phase ≠ .closed → c.destroyed = 0
  refcnt : ∀ x, s.refcnt x = R x + (queued (s.conns.filter (·.phase ≠ .closed))).count x
  unused : ∀ e s', step w s e = some s' → ∀ i ∈ accessed s e, ∀ c, s.conns[i]? = some c →
    c.destroyed = 0

/-- No connection is closed that was told to shut down, because its node was stopped. -/
def NotStopped (s : System) : Event → Prop
  | .closed c => ∀ x, s.conns[c]? = some x → x.state ≠ .shutdown
  | _ => True

instance decidableNotStopped (s : System) : ∀ e, Decidable (NotStopped s e)
  | .closed c =>
    match h : s.conns[c]? with
    | none => .isTrue (by simp [NotStopped, h])
    | some x => decidable_of_iff (x.state ≠ .shutdown) (by simp [NotStopped, h])
  | .established .. | .write .. | .writeable .. | .receive .. | .stop _ => .isTrue trivial

/-! ## Every order of events -/

structure Connection.WellFormed (c : Connection) : Prop where
  fresh : ¬ c.inited → c.queue = [] ∧ c.destroyed = 0 ∧ c.state = .established
  alive : c.phase ≠ .closed → c.destroyed = 0 ∧ (c.inited → c.state = .initialized ∨ c.state = .shutdown)
  closed : c.phase = .closed → c.inited → c.state = .shutdown ∧ c.destroyed = 0 ∨
    c.state ≠ .shutdown ∧ c.destroyed = 1 ∧ c.queue = [] ∧ c.formatter = false ∧ c.recv = none

structure Inv (R : SampleId → Int) (s : System) : Prop where
  conns : ∀ c ∈ s.conns, c.WellFormed
  list : ∀ i, i ∈ s.list ↔ ∃ c, s.conns[i]? = some c ∧ c.inited ∧ c.phase ≠ .closed
  refcnt : ∀ x, s.refcnt x = R x + (queued s.conns).count x

section
variable {w : Registry} {R refcnt : SampleId → Int} {s s' : System} {c c' : Connection} {i : Nat}

theorem queued_set (hget : s.conns[i]? = some c) (c' : Connection) :
    queued (s.conns.set i c') + c.queue = queued s.conns + c'.queue := by
  obtain ⟨rest, heq, hset⟩ := @total_set i _ (fun c => (c.queue : Multiset SampleId)) queued
    (fun _ _ => rfl) s.conns c hget
  rw [heq, hset]
  abel

theorem queued_append (cs ds : List Connection) : queued (cs ++ ds) = queued cs + queued ds := by
  induction cs with
  | nil => exact (zero_add _).symm
  | cons c cs ih =>
    rw [List.cons_append, queued, queued, ih, add_assoc]

theorem Inv.refcnt_set (hinv : Inv R s) (hget : s.conns[i]? = some c)
    (hrefcnt : ∀ x, refcnt x + c.queue.count x = s.refcnt x + c'.queue.count x) (x : SampleId) :
    refcnt x = R x + (queued (s.conns.set i c')).count x := by
  have hqueued := congrArg (Multiset.count x) (queued_set hget c')
  rw [Multiset.count_add, Multiset.count_add, Multiset.coe_count, Multiset.coe_count] at hqueued
  have := hinv.refcnt x
  have := hrefcnt x
  omega

theorem Inv.set (hinv : Inv R s) (hget : s.conns[i]? = some c) (hc' : c'.WellFormed)
    (hinited : c'.inited = c.inited) (hphase : c.phase ≠ .closed ∧ c'.phase ≠ .closed)
    (hrefcnt : ∀ x, refcnt x + c.queue.count x = s.refcnt x + c'.queue.count x) :
    Inv R { s with conns := s.conns.set i c', refcnt } where
  conns d hd := by
    rcases List.mem_or_eq_of_mem_set hd with hd | rfl
    · exact hinv.conns d hd
    · exact hc'
  list k := by
    rw [hinv.list]
    dsimp only
    rw [List.getElem?_set]
    split
    · subst ‹i = k›
      rw [hget]
      simp [(List.getElem?_eq_some_iff.mp hget).1, hinited, hphase]
    · rfl
  refcnt := hinv.refcnt_set hget hrefcnt

/-- It is not closed, or it was not told to shut down before. -/
def Connection.NotLeft (c : Connection) : Prop :=
  c.phase = .closed → c.inited → c.state ≠ .shutdown

theorem forall_mem_set {P : Connection → Prop} {cs : List Connection} (hget : cs[i]? = some c) (hc : P c)
    (hc' : P c') : (∀ d ∈ cs.set i c', P d) ↔ ∀ d ∈ cs, P d := by
  constructor
  · intro h d hd
    obtain ⟨k, hk⟩ := List.mem_iff_getElem?.mp hd
    rcases eq_or_ne i k with rfl | hne
    · rw [hget] at hk
      cases hk
      exact hc
    · exact h d (List.mem_iff_getElem?.mpr ⟨k, by rw [List.getElem?_set_ne hne, hk]⟩)
  · intro h d hd
    rcases List.mem_or_eq_of_mem_set hd with hd | rfl
    · exact h d hd
    · exact hc'

/-- What an event may do to connections that are not closed. -/
def Keeps (R : SampleId → Int) (s s' : System) : Prop :=
  Inv R s' ∧ ((∀ c ∈ s'.conns, c.NotLeft) ↔ ∀ c ∈ s.conns, c.NotLeft)

theorem Inv.keeps_set (hinv : Inv R s) (hget : s.conns[i]? = some c) (hc' : c'.WellFormed)
    (hinited : c'.inited = c.inited) (hphase : c.phase ≠ .closed ∧ c'.phase ≠ .closed)
    (hrefcnt : ∀ x, refcnt x + c.queue.count x = s.refcnt x + c'.queue.count x) :
    Keeps R s { s with conns := s.conns.set i c', refcnt } :=
  ⟨hinv.set hget hc' hinited hphase hrefcnt,
    forall_mem_set hget (fun h => absurd h hphase.1) fun h => absurd h hphase.2⟩

theorem keeps_foldl {f : System → Nat → System}
    (hf : ∀ s i, Inv R s → i ∈ s.list → Keeps R s (f s i) ∧ (f s i).list = s.list) {is : List Nat}
    (hinv : Inv R s) (his : ∀ i ∈ is, i ∈ s.list) : Keeps R s (is.foldl f s) := by
  induction is generalizing s with
  | nil => exact ⟨hinv, Iff.rfl⟩
  | cons i is ih =>
    obtain ⟨⟨hinv₁, hleft₁⟩, hlist⟩ := hf s i hinv (his i (by simp))
    obtain ⟨hinv₂, hleft₂⟩ := ih hinv₁ fun k hk => by
      rw [hlist]
      exact his k (by simp [hk])
    exact ⟨hinv₂, hleft₂.trans hleft₁⟩

theorem Inv.connectionWrite (n : Nat) (smps : List SampleId) (hinv : Inv R s) (hi : i ∈ s.list) :
    Keeps R s (s.connectionWrite n smps i) ∧ (s.connectionWrite n smps i).list = s.list := by
  obtain ⟨c, hget, hinited, hphase⟩ := (hinv.list i).mp hi
  have hc := hinv.conns c (List.mem_of_getElem? hget)
  unfold System.connectionWrite
  rw [hget]
  dsimp only
  split
  · refine ⟨hinv.keeps_set hget ?_ rfl ⟨hphase, hphase⟩ fun x => ?_, rfl⟩
    · exact ⟨fun hfresh => absurd hinited hfresh, hc.alive, fun hclosed => absurd hclosed hphase⟩
    · simp only [incref, List.count_append]
      push_cast
      omega
  · exact ⟨⟨hinv, Iff.rfl⟩, rfl⟩

theorem Inv.shutdown (n : Nat) (hinv : Inv R s) (hi : i ∈ s.list) :
    Keeps R s (s.shutdown n i) ∧ (s.shutdown n i).list = s.list := by
  obtain ⟨c, hget, hinited, hphase⟩ := (hinv.list i).mp hi
  have hc := hinv.conns c (List.mem_of_getElem? hget)
  unfold System.shutdown
  rw [hget]
  dsimp only
  split
  · refine ⟨@Inv.keeps_set R s.refcnt s c _ i hinv hget ?_ rfl ⟨hphase, hphase⟩ fun x => rfl, rfl⟩
    exact ⟨fun hfresh => absurd hinited hfresh, fun _ => ⟨(hc.alive hphase).1, fun _ => .inr rfl⟩,
      fun hclosed => absurd hclosed hphase⟩
  · exact ⟨⟨hinv, Iff.rfl⟩, rfl⟩

theorem Inv.writeable (ret : Int) (hinv : Inv R s) (hget : s.conns[i]? = some c) (hphase : c.phase = .open) :
    Keeps R s (s.writeable i c ret) := by
  have hc := hinv.conns c (List.mem_of_getElem? hget)
  have hopen : c.phase ≠ .closed := by simp [hphase]
  obtain ⟨hdestroyed, hstate⟩ := hc.alive hopen
  unfold System.writeable
  dsimp only
  refine hinv.keeps_set hget ⟨fun hfresh => ?_, fun _ => ⟨hdestroyed, hstate⟩, fun hclosed => ?_⟩ rfl
    ⟨hopen, ?_⟩ fun x => ?_
  · obtain ⟨hqueue, -, hestablished⟩ := hc.fresh hfresh
    dsimp only
    rw [hqueue]
    exact ⟨rfl, hdestroyed, hestablished⟩
  · dsimp only at hclosed
    split at hclosed <;> cases hclosed
  · dsimp only
    split <;> simp
  · have hsplit := congrArg (List.count x) (List.take_append_drop pullCount c.queue)
    rw [List.count_append] at hsplit
    unfold decref
    dsimp only
    omega

theorem Connection.receive_kept (c : Connection) (first final : Bool) (data : List UInt8) (recvd : Int) :
    (c.receive first final data recvd).inited = c.inited ∧ (c.receive first final data recvd).queue = c.queue ∧
      (c.receive first final data recvd).destroyed = c.destroyed ∧
      (c.receive first final data recvd).state = c.state ∧
      ((c.receive first final data recvd).phase = .closed → c.phase = .closed) := by
  unfold Connection.receive
  dsimp only
  split
  · exact ⟨rfl, rfl, rfl, rfl, id⟩
  · refine ⟨rfl, rfl, rfl, rfl, fun hclosed => ?_⟩
    dsimp only at hclosed
    split at hclosed <;> cases hclosed

theorem Inv.receive (first final : Bool) (data : List UInt8) (recvd : Int) (hinv : Inv R s)
    (hget : s.conns[i]? = some c) (hphase : c.phase = .open) :
    Keeps R s { s with conns := s.conns.set i (c.receive first final data recvd) } := by
  have hc := hinv.conns c (List.mem_of_getElem? hget)
  have hopen : c.phase ≠ .closed := by simp [hphase]
  obtain ⟨hinited, hqueue, hdestroyed, hstate, hclosed⟩ := c.receive_kept first final data recvd
  have hopen' := mt hclosed hopen
  refine @Inv.keeps_set R s.refcnt s c _ i hinv hget ⟨?_, ?_, fun h => absurd h hopen'⟩ hinited
    ⟨hopen, hopen'⟩ fun x => by rw [hqueue]
  · rw [hinited, hqueue, hdestroyed, hstate]
    exact hc.fresh
  · rw [hinited, hdestroyed, hstate]
    exact fun _ => hc.alive hopen

theorem setup_spec {origin : Origin} (h : setup w origin = some c) :
    c.state = .established ∧ c.queue = [] ∧ c.phase = .open ∧ c.inited = false ∧ c.destroyed = 0 := by
  unfold setup at h
  cases origin with
  | client n =>
    cases h
    exact ⟨rfl, rfl, rfl, rfl, rfl⟩
  | server uri =>
    dsimp only at h
    rw [Option.ite_none_left_eq_some, Option.ite_none_right_eq_some] at h
    cases h.2.2
    exact ⟨rfl, rfl, rfl, rfl, rfl⟩

theorem Inv.keeps_append {list : List Nat} (hinv : Inv R s) (hc : c.WellFormed) (hqueue : c.queue = [])
    (hphase : c.phase ≠ .closed) (hlist : ∀ k, k ∈ list ↔ k ∈ s.list ∨ k = s.conns.length ∧ c.inited) :
    Keeps R s { s with conns := s.conns ++ [c], list } := by
  refine ⟨⟨?_, fun k => ?_, fun x => ?_⟩, ?_⟩
  · simpa [or_imp, forall_and] using ⟨hinv.conns, hc⟩
  · rw [hlist, hinv.list]
    dsimp only
    rcases lt_trichotomy k s.conns.length with hlt | rfl | hgt
    · simp [List.getElem?_append_left hlt, hlt.ne]
    · simp [hphase]
    · have hnone : s.conns[k]? = none := List.getElem?_eq_none hgt.le
      have hnone' : (s.conns ++ [c])[k]? = none := by
        apply List.getElem?_eq_none
        rw [List.length_append]
        exact hgt
      simp [hnone, hnone', hgt.ne']
  · rw [hinv.refcnt, queued_append, queued, queued, hqueue]
    simp
  · have hnot : c.NotLeft := fun hclosed => absurd hclosed hphase
    simp [or_imp, forall_and, hnot]

theorem Inv.established {origin : Origin} {ret : Int} (hinv : Inv R s)
    (hstep : s.established w origin ret = some s') : Keeps R s s' := by
  obtain ⟨c, hsetup, rfl⟩ := Option.map_eq_some_iff.mp hstep
  obtain ⟨hstate, hqueue, hphase, hinited, hdestroyed⟩ := setup_spec hsetup
  split
  · refine hinv.keeps_append ⟨?_, ?_, ?_⟩ rfl ?_ ?_
    · exact fun hfresh => absurd rfl hfresh
    · exact fun _ => ⟨hdestroyed, fun _ => .inl rfl⟩
    · intro hclosed
      cases hphase.symm.trans hclosed
    · simp [Connection.init, hphase]
    · simp [Connection.init]
  · refine @Inv.keeps_append R s _ s.list hinv ⟨?_, ?_, ?_⟩ hqueue ?_ ?_
    · exact fun _ => ⟨hqueue, hdestroyed, hstate⟩
    · exact fun _ => ⟨hdestroyed, fun hinited' => by simp [hinited] at hinited'⟩
    · intro hclosed
      cases hclosed
    · simp
    · simp [hinited]

theorem Inv.close (hinv : Inv R s) (hget : s.conns[i]? = some c) (hc' : c'.WellFormed)
    (hphase : c'.phase = .closed)
    (hrefcnt : ∀ x, refcnt x + c.queue.count x = s.refcnt x + c'.queue.count x) :
    Inv R { conns := s.conns.set i c', list := s.list.filter (· ≠ i), refcnt } where
  conns d hd := by
    rcases List.mem_or_eq_of_mem_set hd with hd | rfl
    · exact hinv.conns d hd
    · exact hc'
  list k := by
    dsimp only
    rw [List.mem_filter, hinv.list, List.getElem?_set]
    split
    · subst ‹i = k›
      simp [(List.getElem?_eq_some_iff.mp hget).1, hphase]
    · simp [Ne.symm ‹i ≠ k›]
  refcnt := hinv.refcnt_set hget hrefcnt

theorem Inv.closed (hinv : Inv R s) (hget : s.conns[i]? = some c) (hphase : c.phase ≠ .closed)
    (hstep : s.closed i c = some s') :
    Inv R s' ∧ ((∀ c ∈ s'.conns, c.NotLeft) ↔ (∀ c ∈ s.conns, c.NotLeft) ∧ c.state ≠ .shutdown) := by
  have hc := hinv.conns c (List.mem_of_getElem? hget)
  obtain ⟨hdestroyed, hstate⟩ := hc.alive hphase
  unfold System.closed at hstep
  split at hstep
  · cases hstep
  dsimp only at hstep
  have hnot : c.NotLeft := fun hclosed => absurd hclosed hphase
  split at hstep
  · rename_i hinit
    cases hstep
    refine ⟨hinv.close hget ⟨fun hfresh => ?_, fun hopen => absurd rfl hopen, fun _ _ => .inr ?_⟩ rfl
      fun x => ?_, ?_⟩
    · have hestablished := (hc.fresh hfresh).2.2
      rw [hinit] at hestablished
      cases hestablished
    · exact ⟨by simp [Connection.destroy], congrArg (· + 1) hdestroyed, rfl, rfl, rfl⟩
    · unfold decref
      simp [Connection.destroy]
    · rw [hinit, forall_mem_set hget hnot]
      · simp
      · exact fun _ _ => by simp [Connection.destroy]
  · rename_i hinit
    cases hstep
    refine ⟨@Inv.close R s.refcnt s c _ i hinv hget
      ⟨hc.fresh, fun hopen => absurd rfl hopen, fun _ hinited => ?_⟩ rfl fun x => rfl, ?_⟩
    · exact .inl ⟨(hstate hinited).resolve_left hinit, hdestroyed⟩
    · by_cases hshutdown : c.state = .shutdown
      · refine iff_of_false (fun hall => ?_) fun h => h.2 hshutdown
        have hinited : c.inited := by
          by_contra hfresh
          have := (hc.fresh hfresh).2.2
          rw [hshutdown] at this
          cases this
        have hi := (List.getElem?_eq_some_iff.mp hget).1
        exact hall { c with phase := .closed } (List.mem_set hi _) rfl hinited hshutdown
      · rw [forall_mem_set hget hnot]
        · exact (and_iff_left hshutdown).symm
        · exact fun _ _ => hshutdown

theorem Inv.step {e : Event} (hinv : Inv R s) (hstep : step w s e = some s') :
    Inv R s' ∧ ((∀ c ∈ s'.conns, c.NotLeft) ↔ (∀ c ∈ s.conns, c.NotLeft) ∧ NotStopped s e) := by
  cases e with
  | established origin ret =>
    obtain ⟨hinv', hleft⟩ := hinv.established hstep
    exact ⟨hinv', hleft.trans (and_iff_left trivial).symm⟩
  | write n cpys =>
    cases hstep
    obtain ⟨hinv', hleft⟩ := keeps_foldl (fun s i hinv hi => hinv.connectionWrite n cpys hi) hinv fun _ => id
    exact ⟨hinv', hleft.trans (and_iff_left trivial).symm⟩
  | writeable i ret =>
    obtain ⟨c, hget, hstep⟩ := Option.bind_eq_some_iff.mp hstep
    split at hstep
    · cases hstep
      obtain ⟨hinv', hleft⟩ := hinv.writeable ret hget ‹_›
      exact ⟨hinv', hleft.trans (and_iff_left trivial).symm⟩
    · cases hstep
  | receive i first final data recvd =>
    obtain ⟨c, hget, hstep⟩ := Option.bind_eq_some_iff.mp hstep
    split at hstep
    · cases hstep
      obtain ⟨hinv', hleft⟩ := hinv.receive first final data recvd hget ‹_›
      exact ⟨hinv', hleft.trans (and_iff_left trivial).symm⟩
    · cases hstep
  | stop n =>
    cases hstep
    obtain ⟨hinv', hleft⟩ := keeps_foldl (fun s i hinv hi => hinv.shutdown n hi) hinv fun _ => id
    exact ⟨hinv', hleft.trans (and_iff_left trivial).symm⟩
  | closed i =>
    obtain ⟨c, hget, hstep⟩ := Option.bind_eq_some_iff.mp hstep
    split at hstep
    · obtain ⟨hinv', hleft⟩ := hinv.closed hget ‹_› hstep
      exact ⟨hinv', hleft.trans (by simp [NotStopped, hget])⟩
    · cases hstep

theorem queued_filter {cs : List Connection} (hclosed : ∀ c ∈ cs, c.phase = .closed → c.queue = []) :
    queued (cs.filter (·.phase ≠ .closed)) = queued cs := by
  induction cs with
  | nil => rfl
  | cons c cs ih =>
    have hrest := ih fun d hd => hclosed d (by simp [hd])
    by_cases hphase : c.phase = .closed
    · rw [List.filter_cons_of_neg (by simpa using hphase), hrest, queued, hclosed c (by simp) hphase]
      exact (zero_add _).symm
    · rw [List.filter_cons_of_pos (by simpa using hphase), queued, hrest, queued]

theorem Inv.accessed_open {e : Event} (hinv : Inv R s) (hstep : WebsocketConnections.step w s e = some s')
    (hi : i ∈ accessed s e) (hget : s.conns[i]? = some c) : c.phase ≠ .closed := by
  have hlist : i ∈ s.list → c.phase ≠ .closed := by
    intro hi
    obtain ⟨d, hget', -, hphase⟩ := (hinv.list i).mp hi
    cases hget.symm.trans hget'
    exact hphase
  cases e with
  | established origin ret => cases hi
  | write n cpys => exact hlist hi
  | stop n => exact hlist hi
  | writeable k ret =>
    cases List.mem_singleton.mp hi
    obtain ⟨d, hget', hstep⟩ := Option.bind_eq_some_iff.mp hstep
    cases hget.symm.trans hget'
    rw [Option.ite_none_right_eq_some] at hstep
    simp [hstep.1]
  | receive k first final data recvd =>
    cases List.mem_singleton.mp hi
    obtain ⟨d, hget', hstep⟩ := Option.bind_eq_some_iff.mp hstep
    cases hget.symm.trans hget'
    rw [Option.ite_none_right_eq_some] at hstep
    simp [hstep.1]
  | closed k =>
    cases List.mem_singleton.mp hi
    obtain ⟨d, hget', hstep⟩ := Option.bind_eq_some_iff.mp hstep
    cases hget.symm.trans hget'
    rw [Option.ite_none_right_eq_some] at hstep
    exact hstep.1

theorem Inv.released_iff (hinv : Inv R s) : Released w R s ↔ ∀ c ∈ s.conns, c.NotLeft := by
  constructor
  · intro hreleased c hc hphase hinited hshutdown
    rcases (hinv.conns c hc).closed hphase hinited with ⟨-, hzero⟩ | ⟨hstate, -⟩
    · have := (hreleased.once c hc hinited hphase).1
      omega
    · exact hstate hshutdown
  · intro hleft
    have honce : ∀ c ∈ s.conns, c.inited → c.phase = .closed →
        c.destroyed = 1 ∧ c.queue = [] ∧ c.formatter = false ∧ c.recv = none := by
      intro c hc hinited hphase
      rcases (hinv.conns c hc).closed hphase hinited with ⟨hshutdown, -⟩ | ⟨-, hreleased⟩
      · exact absurd hshutdown (hleft c hc hphase hinited)
      · exact hreleased
    refine ⟨honce, fun c hc hphase => ((hinv.conns c hc).alive hphase).1, fun x => ?_, ?_⟩
    · rw [hinv.refcnt, queued_filter]
      intro c hc hphase
      by_cases hinited : c.inited
      · exact (honce c hc hinited hphase).2.1
      · exact ((hinv.conns c hc).fresh hinited).1
    · intro e s' hstep i hi c hget
      have hphase := hinv.accessed_open hstep hi hget
      exact ((hinv.conns c (List.mem_of_getElem? hget)).alive hphase).1

theorem Inv.start (R : SampleId → Int) : Inv R (start R) where
  conns c hc := absurd hc (by simp [WebsocketConnections.start])
  list i := by simp [WebsocketConnections.start]
  refcnt x := by simp [WebsocketConnections.start, queued]

/-- Connections are released in exactly those runs in which none is closed after its node was
stopped. -/
theorem life_cycle_iff {events : List Event}
    (hrun : Runs.run (WebsocketConnections.step w) (WebsocketConnections.start R) events = some s) :
    Released w R s ↔ Runs.Along (WebsocketConnections.step w) NotStopped (WebsocketConnections.start R) events := by
  have hinv : Inv R s := Runs.always (fun _ _ _ hinv hstep => (Inv.step hinv hstep).1) (.start R) hrun
  have hlast := Runs.along_iff_last (fun _ _ _ hinv hstep => (Inv.step hinv hstep).1)
    (fun _ _ _ hinv hstep => (Inv.step hinv hstep).2) (.start R) hrun
  rw [hinv.released_iff, hlast]
  exact and_iff_right (by simp [WebsocketConnections.start])

end

/-- The node `a` has the format `villas.web`. -/
def exampleRegistry : Registry := ⟨fun name => if name = ['a'] then some 0 else none, fun _ => true⟩

/-- A sample is written to a server connection, and the node is stopped or the peer goes away. -/
def writtenThen (event : Event) : List Event :=
  [.established (.server "/a".toList) 0, .write 0 [10], event, .closed 0]

theorem life_cycle_writtenThen :
    ∃ s, Runs.run (step exampleRegistry) (start fun _ => 0) (writtenThen (.write 0 [11])) = some s ∧
      Released exampleRegistry (fun _ => 0) s :=
  ⟨_, rfl, (@life_cycle_iff _ _ _ (writtenThen (.write 0 [11])) rfl).mpr (by decide)⟩

/-- The sample stays in the queue of a connection that is closed after the node was stopped. -/
theorem not_life_cycle : ¬ ∀ (w : Registry) (R : SampleId → Int) (events : List Event) (s : System),
    Runs.run (step w) (start R) events = some s → Released w R s := by
  intro hclaim
  have hreleased := hclaim exampleRegistry (fun _ => 0) (writtenThen (.stop 0)) _ rfl
  have hnone := (hreleased.once _ (List.mem_of_getElem? (i := 0) rfl) rfl rfl).1
  revert hnone
  decide

end VillasNode.WebsocketConnections
