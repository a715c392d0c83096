import VillasNode.Relay.Model

/-!
# What the relay delivers

Clients are in a session each, and what one of them sends goes to the others.
The model here has neither sessions nor queues. The relay is compared with it
along every run.
-/

namespace VillasNode.VillasRelay

/-! ## Clients -/

/-- A client that is connected. -/
structure Client where
  session : Identifier
  /-- The fragments of a frame that is not complete. -/
  fragments : Frame
  /-- The frames of the others that were completed since it is connected. -/
  received : List Frame

abbrev Clients := Wsi → Option Client

def Client.receive (d : Client) (frame : Frame) : Client := { d with received := d.received ++ [frame] }

namespace Clients

/-- The frame `frame` of the client `wsi` is complete. -/
def complete (loopback : Bool) (a : Clients) (wsi : Wsi) (session : Identifier) (frame : Frame) : Clients :=
  fun w => (a w).map fun d =>
    let d := if w = wsi then { d with fragments := [] } else d
    if d.session = session ∧ (w = wsi → loopback) then d.receive frame else d

/-- What a callback is about. The name of a session is the path of the request without its slash. -/
def next (loopback : Bool) (a : Clients) : Event → Clients
  | .established wsi _ path _ =>
    if path.length ≤ 1 then a else Function.update a wsi (some ⟨path.drop 1, [], []⟩)
  | .receive wsi bytes final =>
    match a wsi with
    | none => a
    | some d =>
      if final then a.complete loopback wsi d.session (d.fragments ++ bytes)
      else Function.update a wsi (some { d with fragments := d.fragments ++ bytes })
  | .writeable _ _ => a
  | .closed wsi => Function.update a wsi none

end Clients

/-! ## The relay and its clients -/

/-- A connection is that of a client: it has the fragments, and what the client is to receive is
written or queued. It is called back if and only if something is queued. -/
structure Matches (r : Relay) (w : Wsi) (c : RelayConnection) (d : Client) : Prop where
  loopback : c.loopback = r.loopback
  fragments : c.currentFrame = d.fragments
  received : r.written w ++ c.outgoingFrames = d.received
  pending : r.pending w = true ↔ c.outgoingFrames ≠ []
  session : r.sessions d.session = some c.session

def Paired (r : Relay) (w : Wsi) : Option RelayConnection → Option Client → Prop
  | some c, some d => Matches r w c d
  | none, none => True
  | _, _ => False

structure Represents (r : Relay) (a : Clients) : Prop where
  client : ∀ w, Paired r w (r.connections w) (a w)
  session : ∀ p rs, r.heap p = some rs → r.sessions rs.identifier = some p ∧ rs.connections ≠ [] ∧
    rs.connections.Nodup ∧ ∀ w, w ∈ rs.connections ↔ ∃ c, r.connections w = some c ∧ c.session = p
  named : ∀ id p, r.sessions id = some p → ∃ rs, r.heap p = some rs ∧ rs.identifier = id

variable {r : Relay} {a : Clients} {wsi w : Wsi}

theorem Represents.open (h : Represents r a) {c : RelayConnection} (hc : r.connections w = some c) :
    ∃ d, a w = some d ∧ Matches r w c d := by
  have := h.client w
  rw [hc] at this
  cases hd : a w with
  | none =>
    rw [hd] at this
    exact this.elim
  | some d =>
    rw [hd] at this
    exact ⟨d, rfl, this⟩

theorem Represents.shut (h : Represents r a) (hc : r.connections w = none) : a w = none := by
  have := h.client w
  rw [hc] at this
  cases hd : a w with
  | none => rfl
  | some d =>
    rw [hd] at this
    exact this.elim

theorem Represents.connected (h : Represents r a) {d : Client} (hd : a w = some d) :
    ∃ c, r.connections w = some c ∧ Matches r w c d := by
  cases hc : r.connections w with
  | none =>
    rw [h.shut hc] at hd
    simp at hd
  | some c =>
    obtain ⟨d', hd', hm⟩ := h.open hc
    rw [hd] at hd'
    cases hd'
    exact ⟨c, rfl, hm⟩

theorem Paired.frame {r' : Relay} {x : Option RelayConnection} {y : Option Client} (h : Paired r w x y)
    (hloopback : r'.loopback = r.loopback) (hwritten : r'.written w = r.written w)
    (hpending : r'.pending w = r.pending w)
    (hsessions : ∀ d, y = some d → r'.sessions d.session = r.sessions d.session) : Paired r' w x y := by
  cases x with
  | none => cases y with
    | none => trivial
    | some d => exact h.elim
  | some c => cases y with
    | none => exact h.elim
    | some d =>
      refine ⟨h.loopback.trans hloopback.symm, h.fragments, ?_, ?_, ?_⟩
      · rw [hwritten]
        exact h.received
      · rw [hpending]
        exact h.pending
      · rw [hsessions d rfl]
        exact h.session

theorem represents_start (loopback : Bool) : Represents (Relay.start loopback) fun _ => none :=
  ⟨fun _ => trivial, by simp [Relay.start], by simp [Relay.start]⟩

theorem Represents.modify {r' : Relay} {a' : Clients} (h : Represents r a)
    (hsessions : r'.sessions = r.sessions) (hheap : r'.heap = r.heap)
    (hptr : ∀ w, (r'.connections w).map RelayConnection.session =
      (r.connections w).map RelayConnection.session)
    (hclient : ∀ w, Paired r' w (r'.connections w) (a' w)) : Represents r' a' := by
  have hmem : ∀ w p, (∃ c, r'.connections w = some c ∧ c.session = p) ↔
      ∃ c, r.connections w = some c ∧ c.session = p := by
    intro w p
    rw [← Option.map_eq_some_iff, hptr w, Option.map_eq_some_iff]
  refine ⟨hclient, fun p rs hp => ?_, fun id p hid => ?_⟩
  · rw [hheap] at hp
    obtain ⟨hname, hne, hnodup, hiff⟩ := h.session p rs hp
    refine ⟨by rw [hsessions, hname], hne, hnodup, fun w => ?_⟩
    rw [hmem, hiff]
  · rw [hsessions] at hid
    rw [hheap]
    exact h.named id p hid

theorem Represents.update {r' : Relay} {a' : Clients} {c c' : RelayConnection} {d' : Client}
    (h : Represents r a) (hc : r.connections wsi = some c) (hsessions : r'.sessions = r.sessions)
    (hheap : r'.heap = r.heap) (hloopback : r'.loopback = r.loopback)
    (hconnections : r'.connections = Function.update r.connections wsi (some c'))
    (hptr : c'.session = c.session) (hwritten : ∀ w ≠ wsi, r'.written w = r.written w)
    (hpending : ∀ w ≠ wsi, r'.pending w = r.pending w) (hothers : ∀ w ≠ wsi, a' w = a w)
    (hmine : a' wsi = some d') (hmatches : Matches r' wsi c' d') : Represents r' a' := by
  refine h.modify hsessions hheap (fun w => ?_) (fun w => ?_)
  · by_cases hw : w = wsi
    · rw [hconnections, hw, Function.update_self, hc, Option.map_some, Option.map_some, hptr]
    · rw [hconnections, Function.update_of_ne hw]
  · by_cases hw : w = wsi
    · rw [hconnections, hw, Function.update_self, hmine]
      exact hmatches
    · rw [hconnections, Function.update_of_ne hw, hothers w hw]
      exact (h.client w).frame hloopback (hwritten w hw) (hpending w hw) fun _ _ => by rw [hsessions]

/-! ## Writing -/

theorem write_eq {c : RelayConnection} {fr : Frame} {rest : List Frame} {ret : Int}
    (hc : r.connections wsi = some c) (hout : c.outgoingFrames = fr :: rest) (hret : ¬ ret < 0) :
    (r.setPending wsi false).write wsi ret = some
      { r with connections := Function.update r.connections wsi (some { c with outgoingFrames := rest })
               written := Function.update r.written wsi (r.written wsi ++ [fr])
               pending := Function.update r.pending wsi (decide (rest ≠ [])) } := by
  unfold Relay.write Relay.setPending Relay.setConnection
  dsimp only
  rw [hc]
  dsimp only [bind, Option.bind, pure]
  rw [hout]
  dsimp only [List.head?_cons]
  rw [if_neg hret]
  cases rest with
  | nil => rfl
  | cons fr' rest => simp

theorem Represents.writeable (h : Represents r a) (hopen : (r.connections wsi).isSome)
    (hpending : r.pending wsi = true) {ret : Int} (hret : ¬ ret < 0) :
    ∃ r', (r.setPending wsi false).write wsi ret = some r' ∧ r'.loopback = r.loopback ∧
      Represents r' a := by
  obtain ⟨c, hc⟩ := Option.isSome_iff_exists.mp hopen
  obtain ⟨d, hd, hmatches⟩ := h.open hc
  obtain ⟨fr, rest, hout⟩ := List.exists_cons_of_ne_nil (hmatches.pending.mp hpending)
  have hreceived := hmatches.received
  rw [hout] at hreceived
  refine ⟨_, write_eq hc hout hret, rfl, h.update hc rfl rfl rfl rfl rfl
    (fun w hw => Function.update_of_ne hw ..) (fun w hw => Function.update_of_ne hw ..)
    (fun _ _ => rfl) hd ⟨hmatches.loopback, hmatches.fragments, ?_, ?_, hmatches.session⟩⟩
  · dsimp only
    rw [Function.update_self, List.append_assoc]
    exact hreceived
  · dsimp only
    rw [Function.update_self, decide_eq_true_iff]

/-! ## Reading -/

/-- The connections that get a frame of the connection `c` of `wsi`. -/
def Addressed (wsi : Wsi) (c : RelayConnection) (ws : List Wsi) (w : Wsi) : Prop :=
  w ∈ ws ∧ ¬ (c.loopback = false ∧ w = wsi)

def RelayConnection.push (d : RelayConnection) (frame : Frame) : RelayConnection :=
  { d with outgoingFrames := d.outgoingFrames ++ [frame] }

instance (c : RelayConnection) (ws : List Wsi) : Decidable (Addressed wsi c ws w) :=
  inferInstanceAs (Decidable (_ ∧ _))

theorem relay_loop (c : RelayConnection) {ws : List Wsi} (hopen : ∀ w ∈ ws, (r.connections w).isSome)
    (hnodup : ws.Nodup) :
    ws.foldlM (Relay.relayTo wsi c) r = some
      { r with connections := fun w => if Addressed wsi c ws w then
                 (r.connections w).map fun d => d.push c.currentFrame else r.connections w
               pending := fun w => if Addressed wsi c ws w then true else r.pending w } := by
  induction ws generalizing r with
  | nil => simp [Addressed]
  | cons x ws ih =>
    rw [List.forall_mem_cons] at hopen
    rw [List.nodup_cons] at hnodup
    rw [List.foldlM_cons]
    by_cases hskip : c.loopback = false ∧ x = wsi
    · have hone : Relay.relayTo wsi c r x = some r := by
        unfold Relay.relayTo
        rw [if_pos hskip]
      have haddressed : ∀ w, Addressed wsi c (x :: ws) w ↔ Addressed wsi c ws w := by
        intro w
        unfold Addressed
        rw [List.mem_cons]
        constructor
        · rintro ⟨rfl | hw, hnot⟩
          · exact absurd hskip hnot
          · exact ⟨hw, hnot⟩
        · rintro ⟨hw, hnot⟩
          exact ⟨.inr hw, hnot⟩
      rw [hone, Option.bind_eq_bind, Option.bind_some, ih hopen.2 hnodup.2]
      simp only [haddressed]
    · obtain ⟨d, hd⟩ := Option.isSome_iff_exists.mp hopen.1
      have hone : Relay.relayTo wsi c r x = some
          ((r.setConnection x (some (d.push c.currentFrame))).setPending x true) := by
        unfold Relay.relayTo
        rw [if_neg hskip, hd]
        rfl
      have hne : ∀ w ∈ ws, w ≠ x := fun w hw heq => hnodup.1 (heq ▸ hw)
      have hopen' : ∀ w ∈ ws, (((r.setConnection x (some (d.push c.currentFrame))).setPending x
          true).connections w).isSome := by
        intro w hw
        unfold Relay.setPending Relay.setConnection
        dsimp only
        rw [Function.update_of_ne (hne w hw)]
        exact hopen.2 w hw
      have haddressed : ∀ w ≠ x, (Addressed wsi c (x :: ws) w ↔ Addressed wsi c ws w) := by
        intro w hw
        unfold Addressed
        rw [List.mem_cons, or_iff_right hw]
      have hfirst : Addressed wsi c (x :: ws) x := ⟨List.mem_cons_self, hskip⟩
      have hnot : ¬ Addressed wsi c ws x := fun hx => hnodup.1 hx.1
      rw [hone, Option.bind_eq_bind, Option.bind_some, ih hopen' hnodup.2, Option.some.injEq]
      unfold Relay.setPending Relay.setConnection
      dsimp only
      congr 1
      · funext w
        by_cases hw : w = x
        · rw [hw, if_neg hnot, if_pos hfirst, Function.update_self, hd]
          rfl
        · rw [Function.update_of_ne hw]
          simp only [haddressed w hw]
      · funext w
        by_cases hw : w = x
        · rw [hw, if_neg hnot, if_pos hfirst, Function.update_self]
        · rw [Function.update_of_ne hw]
          simp only [haddressed w hw]

theorem Represents.same_session (h : Represents r a) {c c' : RelayConnection} {d d' : Client}
    (hm : Matches r wsi c d) (hm' : Matches r w c' d') : c'.session = c.session ↔ d'.session = d.session := by
  constructor
  · intro hptr
    obtain ⟨rs, hp, hid⟩ := h.named _ _ hm.session
    obtain ⟨rs', hp', hid'⟩ := h.named _ _ hm'.session
    rw [hptr, hp] at hp'
    cases hp'
    rw [← hid, ← hid']
  · intro hname
    have := hm'.session
    rw [hname, hm.session] at this
    exact (Option.some.inj this).symm

theorem read_fragment {c : RelayConnection} (hc : r.connections wsi = some c) (bytes : List Byte) :
    r.read wsi bytes false =
      some (r.setConnection wsi (some { c with currentFrame := c.currentFrame ++ bytes })) := by
  unfold Relay.read
  rw [hc]
  rfl

theorem read_final {c : RelayConnection} (hc : r.connections wsi = some c) {rs : RelaySession}
    (hp : r.heap c.session = some rs) (hopen : ∀ w ∈ rs.connections, (r.connections w).isSome)
    (hnodup : rs.connections.Nodup) (hmem : wsi ∈ rs.connections) (bytes : List Byte) :
    r.read wsi bytes true = some
      { r with connections := fun w =>
                 if w = wsi then
                   some { c with currentFrame := []
                                 outgoingFrames := if c.loopback then
                                   c.outgoingFrames ++ [c.currentFrame ++ bytes] else c.outgoingFrames }
                 else if w ∈ rs.connections then
                   (r.connections w).map fun d => d.push (c.currentFrame ++ bytes) else r.connections w
               pending := fun w => if Addressed wsi c rs.connections w then true else r.pending w } := by
  have hopen' : ∀ w ∈ rs.connections, ((r.setConnection wsi
      (some { c with currentFrame := c.currentFrame ++ bytes })).connections w).isSome := by
    intro w hw
    unfold Relay.setConnection
    dsimp only
    rw [Function.update_apply]
    split
    · rfl
    · exact hopen w hw
  unfold Relay.read
  rw [hc]
  dsimp only [bind, Option.bind, pure]
  rw [if_pos rfl, show (r.setConnection wsi _).heap c.session = some rs from hp]
  dsimp only
  rw [relay_loop _ hopen' hnodup]
  unfold Relay.setConnection
  dsimp only
  have haddressed : ∀ w, Addressed wsi { c with currentFrame := c.currentFrame ++ bytes } rs.connections w ↔
      Addressed wsi c rs.connections w := fun w => Iff.rfl
  have hself : Addressed wsi c rs.connections wsi ↔ c.loopback = true := by
    simp [Addressed, hmem]
  have hothers : ∀ w ≠ wsi, (Addressed wsi c rs.connections w ↔ w ∈ rs.connections) := by
    intro w hw
    simp [Addressed, hw]
  simp only [haddressed, Function.update_self]
  cases hloopback : c.loopback with
  | true =>
    rw [if_pos (hself.mpr hloopback)]
    dsimp only [Option.map_some]
    rw [Option.some.injEq]
    congr 1
    funext w
    by_cases hw : w = wsi
    · rw [hw, Function.update_self, if_pos rfl]
      rfl
    · simp [hw, hothers]
  | false =>
    rw [if_neg fun hc => by rw [hself, hloopback] at hc; simp at hc]
    dsimp only
    rw [Option.some.injEq]
    congr 1
    funext w
    by_cases hw : w = wsi
    · rw [hw, Function.update_self, if_pos rfl]
      rfl
    · simp [hw, hothers]

/-- The relay after the last fragment of `frame`. -/
structure Completed (r : Relay) (wsi : Wsi) (c : RelayConnection) (rs : RelaySession) (frame : Frame)
    (r' : Relay) : Prop where
  loopback : r'.loopback = r.loopback
  sessions : r'.sessions = r.sessions
  heap : r'.heap = r.heap
  written : r'.written = r.written
  sender : r'.connections wsi = some { c with currentFrame := []
                                              outgoingFrames := if c.loopback then c.outgoingFrames ++ [frame]
                                                else c.outgoingFrames }
  others : ∀ w ≠ wsi, r'.connections w =
    if w ∈ rs.connections then (r.connections w).map fun d => d.push frame else r.connections w
  senderPending : r'.pending wsi = if c.loopback then true else r.pending wsi
  othersPending : ∀ w ≠ wsi, r'.pending w = if w ∈ rs.connections then true else r.pending w

theorem read_completed {c : RelayConnection} (hc : r.connections wsi = some c) {rs : RelaySession}
    (hp : r.heap c.session = some rs) (hopen : ∀ w ∈ rs.connections, (r.connections w).isSome)
    (hnodup : rs.connections.Nodup) (hmem : wsi ∈ rs.connections) (bytes : List Byte) :
    ∃ r', r.read wsi bytes true = some r' ∧ Completed r wsi c rs (c.currentFrame ++ bytes) r' := by
  refine ⟨_, read_final hc hp hopen hnodup hmem bytes, rfl, rfl, rfl, rfl, ?_, fun w hw => ?_, ?_, fun w hw => ?_⟩
  · exact if_pos rfl
  · exact if_neg hw
  · simp [Addressed, hmem]
  · simp [Addressed, hw]

theorem Represents.fragment (h : Represents r a) {c : RelayConnection} {d : Client}
    (hc : r.connections wsi = some c) (hm : Matches r wsi c d) (bytes : List Byte) :
    Represents (r.setConnection wsi (some { c with currentFrame := c.currentFrame ++ bytes }))
      (Function.update a wsi (some { d with fragments := d.fragments ++ bytes })) :=
  h.update hc rfl rfl rfl rfl rfl (fun _ _ => rfl) (fun _ _ => rfl)
    (fun _ hw => Function.update_of_ne hw ..) (Function.update_self ..)
    ⟨hm.loopback, by rw [hm.fragments], hm.received, hm.pending, hm.session⟩

theorem Completed.sender_matches {r' : Relay} {c : RelayConnection} {d : Client} {rs : RelaySession}
    {frame : Frame} (hcompleted : Completed r wsi c rs frame r') (hm : Matches r wsi c d) :
    Paired r' wsi (r'.connections wsi)
      (some (if r.loopback then { d with fragments := [] }.receive frame else { d with fragments := [] })) := by
  have hpending := hcompleted.senderPending
  have hloopback := hm.loopback
  rw [hcompleted.sender]
  cases hl : r.loopback with
  | true =>
    rw [hl] at hloopback
    rw [hloopback, if_pos rfl] at hpending ⊢
    refine ⟨by rw [hcompleted.loopback, hl], rfl, ?_, ?_, ?_⟩
    · rw [hcompleted.written, ← List.append_assoc, hm.received]
      rfl
    · rw [hpending]
      simp
    · rw [hcompleted.sessions]
      exact hm.session
  | false =>
    rw [hl] at hloopback
    rw [hloopback, if_neg Bool.false_ne_true] at hpending ⊢
    refine ⟨by rw [hcompleted.loopback, hl], rfl, ?_, ?_, ?_⟩
    · rw [hcompleted.written]
      exact hm.received
    · rw [hpending]
      exact hm.pending
    · rw [hcompleted.sessions]
      exact hm.session

theorem Completed.other_matches {r' : Relay} {c c' : RelayConnection} {d' : Client} {rs : RelaySession}
    {frame : Frame} (hcompleted : Completed r wsi c rs frame r') (hw : w ≠ wsi)
    (hc' : r.connections w = some c') (hm' : Matches r w c' d') :
    Paired r' w (r'.connections w) (some (if w ∈ rs.connections then d'.receive frame else d')) := by
  have hpending := hcompleted.othersPending w hw
  rw [hcompleted.others w hw, hc']
  by_cases hin : w ∈ rs.connections
  · rw [if_pos hin] at hpending
    rw [if_pos hin, if_pos hin]
    refine ⟨?_, hm'.fragments, ?_, ?_, ?_⟩
    · rw [hcompleted.loopback]
      exact hm'.loopback
    · rw [hcompleted.written]
      unfold RelayConnection.push Client.receive
      dsimp only
      rw [← List.append_assoc, hm'.received]
    · rw [hpending]
      simp [RelayConnection.push]
    · rw [hcompleted.sessions]
      exact hm'.session
  · rw [if_neg hin] at hpending
    rw [if_neg hin, if_neg hin]
    have hmatches : Paired r w (some c') (some d') := hm'
    exact hmatches.frame hcompleted.loopback (by rw [hcompleted.written]) hpending
      fun _ _ => by rw [hcompleted.sessions]

theorem Represents.final (h : Represents r a) {c : RelayConnection} {d : Client}
    (hc : r.connections wsi = some c) (hd : a wsi = some d) (hm : Matches r wsi c d) (bytes : List Byte) :
    ∃ r', r.read wsi bytes true = some r' ∧ r'.loopback = r.loopback ∧
      Represents r' (a.complete r.loopback wsi d.session (d.fragments ++ bytes)) := by
  obtain ⟨rs, hp, hid⟩ := h.named _ _ hm.session
  obtain ⟨-, -, hnodup, hiff⟩ := h.session _ rs hp
  have hopen : ∀ w ∈ rs.connections, (r.connections w).isSome := by
    intro w hw
    obtain ⟨c', hc', -⟩ := (hiff w).mp hw
    rw [hc']
    rfl
  have hmem : wsi ∈ rs.connections := (hiff wsi).mpr ⟨c, hc, rfl⟩
  obtain ⟨r', hread, hcompleted⟩ := read_completed hc hp hopen hnodup hmem bytes
  refine ⟨r', hread, hcompleted.loopback, h.modify hcompleted.sessions hcompleted.heap
    (fun w => ?_) (fun w => ?_)⟩
  · by_cases hw : w = wsi
    · rw [hw, hcompleted.sender, hc]
      rfl
    · rw [hcompleted.others w hw]
      split
      · rw [Option.map_map]
        rfl
      · rfl
  · unfold Clients.complete
    rw [← hm.fragments]
    by_cases hw : w = wsi
    · subst hw
      have hsender := hcompleted.sender_matches hm
      rw [hd, Option.map_some, if_pos rfl]
      cases hl : r.loopback with
      | true =>
        rw [hl, if_pos rfl] at hsender
        rwa [if_pos ⟨rfl, fun _ => rfl⟩]
      | false =>
        rw [hl, if_neg Bool.false_ne_true] at hsender
        rwa [if_neg fun hboth => Bool.false_ne_true (hboth.2 rfl)]
    · cases hc' : r.connections w with
      | none =>
        rw [hcompleted.others w hw, hc', h.shut hc', Option.map_none, ite_self]
        trivial
      | some c' =>
        obtain ⟨d', hd', hm'⟩ := h.open hc'
        have hsame : w ∈ rs.connections ↔ d'.session = d.session := by
          rw [← h.same_session hm hm', hiff w, hc']
          simp
        have hother := hcompleted.other_matches hw hc' hm'
        rw [hd', Option.map_some, if_neg hw]
        simpa [hsame, hw] using hother

/-! ## Opening -/

/-- Between `RelaySession::get` and the first connection, the session at `p` may have none. -/
structure Entering (r : Relay) (a : Clients) (p : SessionPtr) (rs : RelaySession) : Prop where
  client : ∀ w, Paired r w (r.connections w) (a w)
  found : r.heap p = some rs
  session : ∀ q rs, r.heap q = some rs → r.sessions rs.identifier = some q ∧
    (q ≠ p → rs.connections ≠ []) ∧ rs.connections.Nodup ∧
    ∀ w, w ∈ rs.connections ↔ ∃ c, r.connections w = some c ∧ c.session = q
  named : ∀ id q, r.sessions id = some q → ∃ rs, r.heap q = some rs ∧ rs.identifier = id

theorem Represents.getSession (h : Represents r a) {p : SessionPtr} (hfree : r.heap p = none)
    {uri : List Byte} (hlong : ¬ uri.length ≤ 1) :
    ∃ r' p' rs, r.getSession p uri = some (r', p') ∧ rs.identifier = uri.drop 1 ∧
      r'.loopback = r.loopback ∧ r'.connections = r.connections ∧ Entering r' a p' rs := by
  unfold Relay.getSession
  rw [if_neg hlong]
  dsimp only
  cases hsid : r.sessions (uri.drop 1) with
  | some p' =>
    obtain ⟨rs, hp, hid⟩ := h.named _ _ hsid
    refine ⟨r, p', rs, rfl, hid, rfl, rfl, h.client, hp, fun q rs' hq => ?_, h.named⟩
    obtain ⟨hname, hne, hnodup, hiff⟩ := h.session q rs' hq
    exact ⟨hname, fun _ => hne, hnodup, hiff⟩
  | none =>
    -- No connection points to the address of the new session.
    have hunused : ∀ w c, r.connections w = some c → c.session ≠ p := by
      rintro w c hc rfl
      obtain ⟨d, -, hm⟩ := h.open hc
      obtain ⟨rs, hp, -⟩ := h.named _ _ hm.session
      rw [hfree] at hp
      simp at hp
    refine ⟨_, p, ⟨uri.drop 1, []⟩, rfl, rfl, rfl, rfl, fun w => ?_, Function.update_self .., ?_, ?_⟩
    · refine (h.client w).frame rfl rfl rfl fun d hd => Function.update_of_ne ?_ ..
      intro heq
      obtain ⟨c, -, hm⟩ := h.connected hd
      have := hm.session
      rw [heq, hsid] at this
      simp at this
    · intro q rs hq
      have hq : Function.update r.heap p (some ⟨uri.drop 1, []⟩) q = some rs := hq
      rw [Function.update_apply] at hq
      split at hq
      · rename_i hqp
        cases hq
        refine ⟨?_, fun hne => absurd hqp hne, List.nodup_nil, fun w => ?_⟩
        · rw [hqp]
          exact Function.update_self ..
        · rw [hqp]
          refine ⟨fun hw => by simp at hw, ?_⟩
          rintro ⟨c, hc, hptr⟩
          exact absurd hptr (hunused w c hc)
      · obtain ⟨hname, hne, hnodup, hiff⟩ := h.session q rs hq
        refine ⟨?_, fun _ => hne, hnodup, hiff⟩
        refine (Function.update_of_ne ?_ ..).trans hname
        intro heq
        rw [heq, hsid] at hname
        simp at hname
    · intro id q hid
      have hid : Function.update r.sessions (uri.drop 1) (some p) id = some q := hid
      rw [Function.update_apply] at hid
      split at hid
      · rename_i hsame
        cases hid
        exact ⟨_, Function.update_self .., hsame.symm⟩
      · obtain ⟨rs, hq, hname⟩ := h.named id q hid
        refine ⟨rs, (Function.update_of_ne ?_ ..).trans hq, hname⟩
        intro heq
        rw [heq, hfree] at hq
        simp at hq

theorem Entering.enter {p : SessionPtr} {rs : RelaySession} (h : Entering r a p rs)
    (hnone : r.connections wsi = none) :
    wsi ∉ rs.connections ∧ Represents
      { r with heap := Function.update r.heap p (some { rs with connections := wsi :: rs.connections })
               connections := Function.update r.connections wsi (some ⟨[], [], p, r.loopback⟩)
               pending := Function.update r.pending wsi false
               written := Function.update r.written wsi [] }
      (Function.update a wsi (some ⟨rs.identifier, [], []⟩)) := by
  obtain ⟨hname, -, hnodup, hiff⟩ := h.session _ _ h.found
  have hout : ∀ q rs', r.heap q = some rs' → wsi ∉ rs'.connections := by
    intro q rs' hq hmem
    obtain ⟨c, hc, -⟩ := ((h.session q rs' hq).2.2.2 wsi).mp hmem
    rw [hnone] at hc
    simp at hc
  refine ⟨hout _ _ h.found, fun w => ?_, fun q rs' hq => ?_, fun id q hq => ?_⟩
  · dsimp only
    by_cases hw : w = wsi
    · subst hw
      rw [Function.update_self, Function.update_self]
      refine ⟨rfl, rfl, ?_, ?_, hname⟩
      · dsimp only
        rw [Function.update_self]
        rfl
      · dsimp only
        rw [Function.update_self]
        simp
    · rw [Function.update_of_ne hw, Function.update_of_ne hw]
      exact (h.client w).frame rfl (Function.update_of_ne hw ..) (Function.update_of_ne hw ..)
        fun _ _ => rfl
  · dsimp only at hq ⊢
    rw [Function.update_apply] at hq
    split at hq
    · rename_i hqp
      cases hq
      refine ⟨by rw [hqp]; exact hname, List.cons_ne_nil _ _,
        List.nodup_cons.mpr ⟨hout _ _ h.found, hnodup⟩, fun w => ?_⟩
      rw [List.mem_cons, Function.update_apply, hiff w, hqp]
      split
      · rename_i hw
        simp [hw]
      · rename_i hw
        rw [or_iff_right hw]
    · rename_i hqp
      obtain ⟨hname', hne', hnodup', hiff'⟩ := h.session q rs' hq
      refine ⟨hname', hne' hqp, hnodup', fun w => ?_⟩
      rw [Function.update_apply, hiff' w]
      split
      · rename_i hw
        subst hw
        rw [hnone]
        simp [Ne.symm hqp]
      · rfl
  · obtain ⟨rs', hq', hid'⟩ := h.named id q hq
    dsimp only
    rw [Function.update_apply]
    split
    · rename_i hqp
      rw [hqp, h.found] at hq'
      cases hq'
      exact ⟨_, rfl, hid'⟩
    · exact ⟨rs', hq', hid'⟩

theorem Represents.established (h : Represents r a) (hnone : r.connections wsi = none) {p : SessionPtr}
    (hfree : r.heap p = none) (path : List Byte) :
    ∃ r', r.established wsi p path = some r' ∧ r'.loopback = r.loopback ∧
      Represents r' (a.next r.loopback (.established wsi p path path)) := by
  unfold Clients.next
  dsimp only
  by_cases hlong : path.length ≤ 1
  · refine ⟨r, ?_, rfl, by rwa [if_pos hlong]⟩
    unfold Relay.established Relay.getSession
    rw [if_pos hlong]
  obtain ⟨r₁, p₁, rs, hget, hid, hloopback, hconnections, hentering⟩ := h.getSession hfree hlong
  rw [← hconnections] at hnone
  obtain ⟨hnot, hentered⟩ := hentering.enter hnone
  rw [if_neg hlong, ← hid]
  refine ⟨_, ?_, ?_, hentered⟩
  · unfold Relay.established Relay.insert
    rw [hget]
    dsimp only
    rw [hentering.found, Option.map_some, if_neg hnot]
    rfl
  · exact hloopback

/-! ## Closing -/

theorem closed_eq {c : RelayConnection} (hc : r.connections wsi = some c) {rs : RelaySession}
    (hp : r.heap c.session = some rs) :
    r.closed wsi = some
      { r with connections := Function.update r.connections wsi none
               heap := Function.update r.heap c.session (if rs.connections.erase wsi = [] then none
                 else some { rs with connections := rs.connections.erase wsi })
               sessions := if rs.connections.erase wsi = [] then
                 Function.update r.sessions rs.identifier none else r.sessions } := by
  unfold Relay.closed
  rw [hc]
  dsimp only [bind, Option.bind, pure]
  rw [hp]
  dsimp only
  by_cases hlast : rs.connections.erase wsi = []
  · rw [if_pos hlast, if_pos hlast, hlast]
    rfl
  · rw [if_neg hlast, if_neg hlast, if_neg (by rwa [List.isEmpty_iff])]
    rfl

theorem Represents.closed (h : Represents r a) (hopen : (r.connections wsi).isSome) :
    ∃ r', r.closed wsi = some r' ∧ r'.loopback = r.loopback ∧
      Represents r' (Function.update a wsi none) := by
  obtain ⟨c, hc⟩ := Option.isSome_iff_exists.mp hopen
  obtain ⟨d, hd, hm⟩ := h.open hc
  obtain ⟨rs, hp, hid⟩ := h.named _ _ hm.session
  obtain ⟨hname, -, hnodup, hiff⟩ := h.session _ rs hp
  -- Who is left in the session.
  have herase : ∀ w, w ∈ rs.connections.erase wsi ↔ w ≠ wsi ∧ ∃ c', r.connections w = some c' ∧
      c'.session = c.session := by
    intro w
    rw [hnodup.mem_erase_iff, hiff w]
  refine ⟨_, closed_eq hc hp, rfl, fun w => ?_, fun q rs' hq => ?_, fun id q hq => ?_⟩
  · dsimp only
    by_cases hw : w = wsi
    · rw [hw, Function.update_self, Function.update_self]
      trivial
    · rw [Function.update_of_ne hw, Function.update_of_ne hw]
      refine (h.client w).frame rfl rfl rfl fun d' hd' => ?_
      dsimp only
      split
      · rename_i hlast
        refine Function.update_of_ne (fun heq => ?_) ..
        obtain ⟨c', hc', hm'⟩ := h.connected hd'
        have hmem : w ∈ rs.connections.erase wsi :=
          (herase w).mpr ⟨hw, c', hc', (h.same_session hm hm').mpr (heq.trans hid)⟩
        rw [hlast] at hmem
        simp at hmem
      · rfl
  · have hq : Function.update r.heap c.session (if rs.connections.erase wsi = [] then none
        else some { rs with connections := rs.connections.erase wsi }) q = some rs' := hq
    dsimp only
    rw [Function.update_apply] at hq
    split at hq
    · rename_i hqp
      split at hq
      · simp at hq
      · rename_i hlast
        cases hq
        rw [if_neg hlast]
        refine ⟨by rw [hqp]; exact hname, hlast, hnodup.erase _, fun w => ?_⟩
        rw [herase w, Function.update_apply, hqp]
        split
        · rename_i hw
          simp [hw]
        · rename_i hw
          rw [and_iff_right hw]
    · rename_i hqp
      obtain ⟨hname', hne', hnodup', hiff'⟩ := h.session q rs' hq
      refine ⟨?_, hne', hnodup', fun w => ?_⟩
      · split
        · refine (Function.update_of_ne (fun heq => ?_) ..).trans hname'
          rw [heq, hname] at hname'
          exact hqp (Option.some.inj hname').symm
        · exact hname'
      · rw [hiff' w, Function.update_apply]
        split
        · rename_i hw
          subst hw
          rw [hc]
          simp [Ne.symm hqp]
        · rfl
  · have hq : (if rs.connections.erase wsi = [] then Function.update r.sessions rs.identifier none
        else r.sessions) id = some q := hq
    dsimp only
    have hold : r.sessions id = some q ∧ (rs.connections.erase wsi = [] → id ≠ rs.identifier) := by
      split at hq
      · rw [Function.update_apply] at hq
        split at hq
        · simp at hq
        · rename_i hne
          exact ⟨hq, fun _ => hne⟩
      · rename_i hlast
        exact ⟨hq, fun h => absurd h hlast⟩
    obtain ⟨rs', hq', hid'⟩ := h.named id q hold.1
    rw [Function.update_apply]
    split
    · rename_i hqp
      rw [hqp, hp] at hq'
      cases hq'
      rw [if_neg fun hlast => hold.2 hlast hid'.symm]
      exact ⟨_, rfl, hid'⟩
    · exact ⟨rs', hq', hid'⟩

/-! ## Runs -/

/-- The path of the request fits into the buffer, and `lws_write` does not fail. -/
def Event.Handled : Event → Prop
  | .established _ _ path _ => path.length < Relay.sizeofUri
  | .writeable _ ret => ¬ ret < 0
  | .receive _ _ _ => True
  | .closed _ => True

instance : DecidablePred Event.Handled
  | .established _ _ path _ => inferInstanceAs (Decidable (path.length < Relay.sizeofUri))
  | .writeable _ ret => inferInstanceAs (Decidable (¬ ret < 0))
  | .receive _ _ _ => .isTrue trivial
  | .closed _ => .isTrue trivial

theorem Represents.step (h : Represents r a) {e : Event} (hdelivers : r.Delivers e) (he : e.Handled)
    (hcopied : Relay.HeaderCopied e) :
    ∃ r', r.protocolCallback e = some r' ∧ r'.loopback = r.loopback ∧
      Represents r' (a.next r.loopback e) := by
  cases e with
  | established wsi p path uri =>
    obtain rfl : uri = path := hcopied he
    exact h.established hdelivers.1 hdelivers.2 uri
  | writeable wsi ret => exact h.writeable hdelivers.1 hdelivers.2 he
  | closed wsi => exact h.closed hdelivers
  | receive wsi bytes final =>
    obtain ⟨c, hc⟩ := Option.isSome_iff_exists.mp hdelivers
    obtain ⟨d, hd, hm⟩ := h.open hc
    unfold Clients.next
    dsimp only
    rw [hd]
    cases final with
    | true => exact h.final hc hd hm bytes
    | false => exact ⟨_, read_fragment hc bytes, rfl, h.fragment hc hm bytes⟩

/-- The sessions are those of the clients, and each client gets what it is to receive. -/
structure Relayed (r : Relay) (a : Clients) : Prop where
  connected : ∀ w, (r.connections w).isSome ↔ (a w).isSome
  sessions : ∀ id, (r.sessions id).isSome ↔ ∃ w d, a w = some d ∧ d.session = id
  members : ∀ id p, r.sessions id = some p → ∃ rs, r.heap p = some rs ∧ rs.identifier = id ∧
    rs.connections.Nodup ∧ ∀ w, w ∈ rs.connections ↔ ∃ d, a w = some d ∧ d.session = id
  objects : ∀ p rs, r.heap p = some rs → r.sessions rs.identifier = some p
  delivered : ∀ w c d, r.connections w = some c → a w = some d →
    r.sessions d.session = some c.session ∧ c.currentFrame = d.fragments ∧
    r.written w ++ c.outgoingFrames = d.received
  requested : ∀ w c, r.connections w = some c → (r.pending w = true ↔ c.outgoingFrames ≠ [])

theorem Represents.member_iff (h : Represents r a) {id : Identifier} {p : SessionPtr}
    (hid : r.sessions id = some p) :
    (∃ c, r.connections w = some c ∧ c.session = p) ↔ ∃ d, a w = some d ∧ d.session = id := by
  constructor
  · rintro ⟨c, hc, rfl⟩
    obtain ⟨d, hd, hm⟩ := h.open hc
    obtain ⟨rs, hp, hname⟩ := h.named _ _ hid
    obtain ⟨rs', hp', hname'⟩ := h.named _ _ hm.session
    rw [hp] at hp'
    cases hp'
    exact ⟨d, hd, hname'.symm.trans hname⟩
  · rintro ⟨d, hd, rfl⟩
    obtain ⟨c, hc, hm⟩ := h.connected hd
    have := hm.session
    rw [hid] at this
    exact ⟨c, hc, (Option.some.inj this).symm⟩

theorem Represents.relayed (h : Represents r a) : Relayed r a := by
  refine ⟨fun w => ⟨fun hc => ?_, fun hd => ?_⟩, fun id => ⟨fun hid => ?_, ?_⟩, fun id p hid => ?_,
    fun p rs hp => (h.session p rs hp).1, fun w c d hc hd => ?_, fun w c hc => ?_⟩
  · obtain ⟨c, hc⟩ := Option.isSome_iff_exists.mp hc
    obtain ⟨d, hd, -⟩ := h.open hc
    rw [hd]
    rfl
  · obtain ⟨d, hd⟩ := Option.isSome_iff_exists.mp hd
    obtain ⟨c, hc, -⟩ := h.connected hd
    rw [hc]
    rfl
  · obtain ⟨p, hid⟩ := Option.isSome_iff_exists.mp hid
    obtain ⟨rs, hp, -⟩ := h.named id p hid
    obtain ⟨-, hne, -, hiff⟩ := h.session p rs hp
    obtain ⟨w, hw⟩ := List.exists_mem_of_ne_nil _ hne
    exact ⟨w, (h.member_iff hid).mp ((hiff w).mp hw)⟩
  · rintro ⟨w, d, hd, rfl⟩
    obtain ⟨c, -, hm⟩ := h.connected hd
    rw [hm.session]
    rfl
  · obtain ⟨rs, hp, hname⟩ := h.named id p hid
    obtain ⟨-, -, hnodup, hiff⟩ := h.session p rs hp
    refine ⟨rs, hp, hname, hnodup, fun w => ?_⟩
    rw [hiff w, h.member_iff hid]
  · obtain ⟨d', hd', hm⟩ := h.open hc
    rw [hd] at hd'
    cases hd'
    exact ⟨hm.session, hm.fragments, hm.received⟩
  · obtain ⟨d, -, hm⟩ := h.open hc
    exact hm.pending

/-- In every run whose paths fit and whose writes succeed, no callback goes wrong, the sessions are
those of the connections that are open, and each frame is queued once for the others. -/
theorem relay_delivers (loopback : Bool) (es : List Event) (hcopied : ∀ e ∈ es, Relay.HeaderCopied e)
    (hgood : Runs.Along Relay.protocolCallback (fun r e => r.Delivers e ∧ e.Handled)
      (Relay.start loopback) es) :
    ∃ r, Runs.run Relay.protocolCallback (Relay.start loopback) es = some r ∧
      Relayed r (es.foldl (Clients.next loopback) fun _ => none) := by
  have hstep : ∀ (r : Relay) (a : Clients) (e : Event), (r.loopback = loopback ∧ Represents r a) →
      ((r.Delivers e ∧ e.Handled) ∧ Relay.HeaderCopied e) → ∃ r', r.protocolCallback e = some r' ∧
        (r'.loopback = loopback ∧ Represents r' (a.next loopback e)) := by
    rintro r a e ⟨rfl, h⟩ ⟨⟨hdelivers, he⟩, hcopied⟩
    exact h.step hdelivers he hcopied
  have hall : Runs.Along Relay.protocolCallback (fun _ e => Relay.HeaderCopied e) (Relay.start loopback) es :=
    Runs.along_of_forall (fun e he _ => hcopied e he) _
  obtain ⟨r, hrun, -, h⟩ := Runs.simulates hstep ⟨rfl, represents_start loopback⟩ (hgood.and hall)
  exact ⟨r, hrun, h.relayed⟩

/-- Two clients of one session. The first sends a frame in two fragments, and the second gets it. -/
def twoFragments : List Event :=
  [.established 1 0 [0x2f, 0x61] [0x2f, 0x61], .established 2 1 [0x2f, 0x61] [0x2f, 0x61],
   .receive 1 [0x10] false, .receive 1 [0x11] true, .writeable 2 2]

theorem relay_delivers_fragments :
    ((twoFragments.foldl (Clients.next false) fun _ => none) 2).map Client.received =
        some [[0x10, 0x11]] ∧
      ∃ r, Runs.run Relay.protocolCallback (Relay.start false) twoFragments = some r ∧
        Relayed r (twoFragments.foldl (Clients.next false) fun _ => none) :=
  ⟨rfl, relay_delivers false twoFragments (by simp [twoFragments, Relay.HeaderCopied]) (by decide)⟩

/-- The frame cannot be written. -/
def failedWrite : List Event :=
  [.established 1 0 [0x2f, 0x61] [0x2f, 0x61], .established 2 1 [0x2f, 0x61] [0x2f, 0x61],
   .receive 1 [0x10] true, .writeable 2 (-1)]

/-- A frame stays queued and nobody asks to write it. -/
theorem relay_loses_frame :
    (∀ e ∈ failedWrite, Relay.HeaderCopied e) ∧
      Runs.Along Relay.protocolCallback Relay.Delivers (Relay.start false) failedWrite ∧
      ∃ r, Runs.run Relay.protocolCallback (Relay.start false) failedWrite = some r ∧
        (r.connections 2).map RelayConnection.outgoingFrames = some [[0x10]] ∧ r.pending 2 = false ∧
        ¬ Relayed r (failedWrite.foldl (Clients.next false) fun _ => none) := by
  refine ⟨by simp [failedWrite, Relay.HeaderCopied], by decide, _, rfl, rfl, rfl, fun h => ?_⟩
  have := (h.requested 2 _ rfl).mpr (by decide)
  simp [Relay.setPending, Relay.setConnection, Relay.setSession] at this

end VillasNode.VillasRelay
