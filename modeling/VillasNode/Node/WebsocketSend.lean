import VillasNode.Lib.Runs
import VillasNode.Node.Websocket
import VillasNode.VillasBinary.Encoding

/-!
# Sending to WebSocket connections

The writable callback in `websocket_protocol_cb` of `lib/nodes/websocket.cpp`
for the villas formats. It pulls a batch, writes it to a send buffer of fixed
size and sends what `sprint` says it has written. It does not look at the number
of samples that `sprint` returns.
-/

namespace VillasNode.WebsocketSend

open ByteOrder VillasBinaryFormat

structure SendBuffer where
  size : Nat
  lwsPre : Nat
  pre_le : lwsPre ≤ size

def SendBuffer.room (b : SendBuffer) : Nat := b.size - b.lwsPre

/-- A connection, with all samples that were pulled from its queue and all frames that were sent. -/
structure State where
  queue : List Payload
  pulled : List Payload
  frames : List (List Byte)

inductive Action where
  /-- `queue_push_many` from another thread. -/
  | push (smps : List Payload)
  /-- The connection is writeable. If `sprint` fails, `wbytes` has no value and the frame is
  `garbage`. -/
  | writeable (garbage : List Byte)

variable (fmt : VillasBinaryFormat) (b : SendBuffer)

/-- What `queue_pull_many` takes. -/
def batch (s : State) : List Payload := s.queue.take Websocket.pullCount

/-- What `lws_write` is given. -/
def frame (garbage : List Byte) (smps : List Payload) : List Byte :=
  match fmt.sprint b.room smps with
  | .ok (bytes, _) => bytes
  | .error _ => garbage

def writeable (garbage : List Byte) (s : State) : State :=
  if batch s = [] then s
  else
    { queue := s.queue.drop Websocket.pullCount
      pulled := s.pulled ++ batch s
      frames := s.frames ++ [frame fmt b garbage (batch s)] }

def step (s : State) : Action → Option State
  | .push smps => some { s with queue := s.queue ++ smps }
  | .writeable garbage => some (writeable fmt b garbage s)

def start (queue : List Payload) : State := ⟨queue, [], []⟩

/-! ## The specification -/

/-- Each sample is in a frame, in order and once: the frames are the messages of some partition of
the samples. -/
def Sent (smps : List Payload) (frames : List (List Byte)) : Prop :=
  ∃ batches, batches.flatten = smps ∧
    List.Forall₂ (fun batch frame => fmt.messages batch = some frame) batches frames

def SendsAll (queue : List Payload) (as : List Action) : Prop :=
  ∃ s, Runs.run (step fmt b) (start queue) as = some s ∧ Sent fmt s.pulled s.frames

/-- The batch that is pulled next can be written and fits into the buffer. -/
def Fits (s : State) : Action → Prop
  | .push _ => True
  | .writeable _ =>
    (∃ bytes, fmt.messages (batch s) = some bytes) ∧ needed (batch s) ≤ b.room

/-! ## What the frames can have -/

section
variable {fmt b} {s s' : State} {a : Action} {smps : List Payload} {frames : List (List Byte)}
  {garbage bytes : List Byte}

theorem frame_length (b : SendBuffer) (garbage : List Byte) (h : fmt.messages smps = some bytes) :
    (frame fmt b garbage smps).length ≤ needed smps ∧
      (needed smps ≤ (frame fmt b garbage smps).length → needed smps ≤ b.room) := by
  obtain ⟨written, hwritten, hprint⟩ := sprintLoop_messages b.room h
  have hframe : frame fmt b garbage smps = written := by
    unfold frame VillasBinaryFormat.sprint
    rw [hprint]
  have hlen := messages_length hwritten
  have hsplit := congrArg needed (List.take_append_drop (fitting b.room smps) smps)
  rw [needed_append] at hsplit
  rw [hframe, hlen]
  refine ⟨by omega, fun hle => ?_⟩
  have hrest := needed_eq_zero.mp (show needed (smps.drop (fitting b.room smps)) = 0 by omega)
  rw [List.drop_eq_nil_iff] at hrest
  exact fitting_eq_length_iff.mp (Nat.le_antisymm (fitting_le _ _) hrest)

theorem frame_messages (h : fmt.messages smps = some bytes) (hfits : needed smps ≤ b.room) :
    frame fmt b garbage smps = bytes := by
  obtain ⟨written, hwritten, hprint⟩ := sprintLoop_messages b.room h
  rw [fitting_eq_length_iff.mpr hfits, List.take_length, h] at hwritten
  unfold frame VillasBinaryFormat.sprint
  rw [hprint]
  cases hwritten
  rfl

/-! ## The bytes that were sent -/

/-- The samples have messages, and so many bytes were sent. -/
def Complete (fmt : VillasBinaryFormat) (s : State) : Prop :=
  (∃ bytes, fmt.messages s.pulled = some bytes) ∧ needed s.pulled ≤ s.frames.flatten.length

/-- There are never more bytes than the samples need, unless one of them has no message. -/
def Bounded (fmt : VillasBinaryFormat) (s : State) : Prop :=
  ∀ bytes, fmt.messages s.pulled = some bytes → s.frames.flatten.length ≤ needed s.pulled

theorem bounded_step (hs : Bounded fmt s) (hstep : step fmt b s a = some s') : Bounded fmt s' := by
  cases a with
  | push smps =>
    cases hstep
    exact hs
  | writeable garbage =>
    cases hstep
    unfold writeable
    split
    · exact hs
    · intro bytes hbytes
      obtain ⟨first, hfirst, rest, hrest, -⟩ := messages_append_eq_some.mp hbytes
      have hle := hs first hfirst
      have hframe := (frame_length b garbage hrest).1
      rw [needed_append, List.flatten_append, List.length_append,
        List.flatten_singleton]
      omega

theorem complete_step (hs : Bounded fmt s) (hstep : step fmt b s a = some s') :
    Complete fmt s' ↔ Complete fmt s ∧ Fits fmt b s a := by
  cases a with
  | push smps =>
    cases hstep
    exact (and_iff_left trivial).symm
  | writeable garbage =>
    cases hstep
    unfold writeable Fits
    split
    · next hnil =>
      rw [hnil]
      exact (and_iff_left ⟨⟨[], rfl⟩, Nat.zero_le _⟩).symm
    · unfold Complete
      dsimp only
      rw [needed_append, List.flatten_append, List.length_append,
        List.flatten_singleton]
      constructor
      · rintro ⟨⟨bytes, hbytes⟩, hle⟩
        obtain ⟨first, hfirst, rest, hrest, -⟩ := messages_append_eq_some.mp hbytes
        have hbound := hs first hfirst
        obtain ⟨hframe, hfits⟩ := frame_length b garbage hrest
        exact ⟨⟨⟨first, hfirst⟩, by omega⟩, ⟨rest, hrest⟩, hfits (by omega)⟩
      · rintro ⟨⟨⟨first, hfirst⟩, hle⟩, ⟨rest, hrest⟩, hfits⟩
        refine ⟨⟨first ++ rest, ?_⟩, ?_⟩
        · exact messages_append_eq_some.mpr ⟨first, hfirst, rest, hrest, rfl⟩
        · rw [frame_messages hrest hfits, messages_length hrest]
          omega

theorem sent_complete (h : Sent fmt s.pulled s.frames) : Complete fmt s := by
  obtain ⟨batches, hflatten, hall⟩ := h
  have hbytes : fmt.messages batches.flatten = some s.frames.flatten := by
    generalize s.frames = frames at hall
    clear hflatten
    induction hall with
    | nil => rfl
    | cons hfirst _ ih =>
      exact messages_append_eq_some.mpr ⟨_, hfirst, _, ih, rfl⟩
  rw [hflatten] at hbytes
  exact ⟨⟨_, hbytes⟩, (messages_length hbytes).ge⟩

theorem sent_step (hs : Sent fmt s.pulled s.frames) (hfits : Fits fmt b s a)
    (hstep : step fmt b s a = some s') : Sent fmt s'.pulled s'.frames := by
  cases a with
  | push smps =>
    cases hstep
    exact hs
  | writeable garbage =>
    cases hstep
    unfold writeable
    split
    · exact hs
    · obtain ⟨batches, hflatten, hall⟩ := hs
      obtain ⟨⟨bytes, hbytes⟩, hroom⟩ := hfits
      refine ⟨batches ++ [batch s], by simp [hflatten], ?_⟩
      apply List.rel_append hall
      rw [frame_messages hbytes hroom]
      exact .cons hbytes .nil

end

/-- In every run, from any queue: all samples that were pulled are in frames, in order and once, if
and only if each batch has messages and fits into the send buffer. -/
theorem sends_all_iff (queue : List Payload) (as : List Action) :
    SendsAll fmt b queue as ↔ Runs.Along (step fmt b) (Fits fmt b) (start queue) as := by
  have hstart : Bounded fmt (start queue) := fun _ _ => Nat.le_refl 0
  obtain ⟨s, hrun⟩ : ∃ s, Runs.run (step fmt b) (start queue) as = some s := by
    generalize start queue = s
    induction as generalizing s with
    | nil => exact ⟨s, rfl⟩
    | cons a as ih =>
      cases a with
      | push smps => exact ih _
      | writeable garbage => exact ih _
  constructor
  · rintro ⟨s', hrun', hsent⟩
    have hlast := Runs.along_iff_last (fun s a s' => bounded_step) (fun s a s' => complete_step)
      hstart hrun'
    exact (hlast.mp (sent_complete hsent)).2
  · intro halong
    refine ⟨s, hrun, ?_⟩
    exact Runs.invariant (I := fun s => Sent fmt s.pulled s.frames)
      (fun s a s' hs hfits => sent_step hs hfits) ⟨[], rfl, .nil⟩ halong hrun

def exampleFormat : VillasBinaryFormat :=
  { VillasNode.exampleFormat with
    web := true, lists := fun _ => List.replicate 600 .integer }

/-- A sample of 600 values, whose message takes 2416 bytes. -/
def exampleSample : Payload := { exampleOut 1 7 with length := 600 }

def exampleBuffer : SendBuffer := ⟨1 <<< 12, 16, by decide⟩

/-- Two samples of 600 values are pulled at once, and the second one does not fit. -/
theorem not_sends_all_two :
    ¬ ∀ (queue : List Payload) (as : List Action), SendsAll exampleFormat exampleBuffer queue as := by
  intro hclaim
  obtain ⟨s, hrun, hsent⟩ := hclaim [exampleSample, exampleSample] [.writeable []]
  obtain ⟨s₁, hstep, hend⟩ := Runs.run_cons_eq_some.mp hrun
  cases hend
  have hstart : Bounded exampleFormat (start [exampleSample, exampleSample]) :=
    fun _ _ => Nat.le_refl 0
  have hfits := (complete_step hstart hstep).mp (sent_complete hsent)
  exact absurd hfits.2.2 (by decide)

end VillasNode.WebsocketSend
