import VillasNode.Queue.Invariant

/-!
# The queue between calls

`queue_push`, `queue_pull`, `queue_push_many` and `queue_pull_many` when no
other thread comes in between. Without a disturbance the queue is a bounded
list.
-/

namespace VillasNode.Mpmc

variable {τ α : Type*}

namespace Queue

/-- `queue_push`. `none` when the call would not return. -/
def push (q : Queue α) (v : α) : Option (Queue α × Int) :=
  if q.stopped then some (q, -1)
  else
    let diff := ((q.cell q.tail).sequence - q.tail).toInt
    if diff = 0 then
      some ((({ q with tail := q.tail + 1 } : Queue α).setData q.tail v).setSequence q.tail
        (q.tail + 1), 1)
    else if diff < 0 then some (q, 0)
    else none

/-- `queue_pull`, with what it stores in `ptr`. -/
def pull (q : Queue α) : Option (Queue α × Int × Option α) :=
  if q.stopped then some (q, -1, none)
  else
    let diff := ((q.cell q.head).sequence - (q.head + 1)).toInt
    if diff = 0 then
      some (({ q with head := q.head + 1 } : Queue α).setSequence q.head
        (q.head + q.bufferMask + 1), 1, (q.cell q.head).data)
    else if diff < 0 then some (q, 0, none)
    else none

/-- The loop of `queue_push_many`, with the last result of `queue_push` and the count `i`. -/
def pushLoop (q : Queue α) (i : Nat) (ret : Int) : List α → Option (Queue α × Int × Nat)
  | [] => some (q, ret, i)
  | v :: vs =>
    match q.push v with
    | none => none
    | some (q, ret) => if ret ≤ 0 then some (q, ret, i) else pushLoop q (i + 1) ret vs

theorem pushLoop_cons (q : Queue α) (i : Nat) (ret : Int) (v : α) (vs : List α) :
    q.pushLoop i ret (v :: vs) =
      match q.push v with
      | none => none
      | some (q, ret) => if ret ≤ 0 then some (q, ret, i) else q.pushLoop (i + 1) ret vs := rfl

/-- `queue_push_many`. For no values at all, `ret` is taken as 0. -/
def pushMany (q : Queue α) (vs : List α) : Option (Queue α × Int) :=
  (q.pushLoop 0 0 vs).map fun (q, ret, i) => (q, if ret = -1 ∧ i = 0 then -1 else i)

def pullLoop (q : Queue α) (ret : Int) (ptrs : List α) : Nat → Option (Queue α × Int × List α)
  | 0 => some (q, ret, ptrs)
  | n + 1 =>
    match q.pull with
    | some (q, ret, some v) => if ret ≤ 0 then some (q, ret, ptrs) else pullLoop q ret (ptrs ++ [v]) n
    | some (q, ret, none) => if ret ≤ 0 then some (q, ret, ptrs) else none
    | none => none

/-- `queue_pull_many` with the values it stores. -/
def pullMany (q : Queue α) (cnt : Nat) : Option (Queue α × Int × List α) :=
  (q.pullLoop 0 [] cnt).map fun (q, ret, ptrs) =>
    (q, if ret = -1 ∧ ptrs = [] then -1 else (ptrs.length : Int), ptrs)

def available (q : Queue α) : Word := q.tail - q.head

end Queue

/-! ## The accesses of a call -/

section
variable [DecidableEq τ] {c : Config τ α} {t : τ} {q : Queue α} {ret : Int}

/-- The accesses of `t`, from a state in which it is in no call back to one, make the queue `q`. -/
def Alone (t : τ) (c : Config τ α) (q : Queue α) : Prop :=
  ∃ as, (∀ a ∈ as, a.1 = t) ∧
    (Runs.run Config.step c as).map (fun c => (c.queue, c.locals)) = some (q, c.locals)

theorem locals_back (hidle : c.locals t = .idle) : Function.update c.locals t .idle = c.locals := by
  rw [← hidle, Function.update_eq_self]

/-- Some accesses of `t` alone lead from one state to the other. -/
def Leads (t : τ) (c c' : Config τ α) : Prop :=
  ∃ as, (∀ a ∈ as, a.1 = t) ∧ Runs.run Config.step c as = some c'

theorem Leads.trans {c' c'' : Config τ α} (h : Leads t c c') (h' : Leads t c' c'') : Leads t c c'' := by
  obtain ⟨as, has, hrun⟩ := h
  obtain ⟨as', has', hrun'⟩ := h'
  refine ⟨as ++ as', fun a ha => ?_, ?_⟩
  · rcases List.mem_append.mp ha with ha | ha
    · exact has a ha
    · exact has' a ha
  · rw [Runs.run_append, hrun]
    exact hrun'

theorem leads_access {c' : Config τ α} (h : c.access t false = some c') : Leads t c c' := by
  refine ⟨[(t, .access false)], by simp, ?_⟩
  rw [Runs.run, Config.step, h]
  rfl

theorem Leads.alone {c' : Config τ α} (h : Leads t c c') (hqueue : c'.queue = q)
    (hlocals : c'.locals = c.locals) : Alone t c q := by
  obtain ⟨as, has, hrun⟩ := h
  exact ⟨as, has, by rw [hrun, Option.map_some, hqueue, hlocals]⟩

/-- The thread has come to the local state `l`, and the rest is as it was. -/
structure At (t : τ) (c : Config τ α) (l : Local α) (c' : Config τ α) : Prop where
  leads : Leads t c c'
  queue : c'.queue = c.queue
  locals : c'.locals = Function.update c.locals t l

theorem at_start {l : Local α} {a : Action α} (h : Config.step c (t, a) = some (c.start t l)) :
    At t c l (c.start t l) := by
  refine ⟨⟨[(t, a)], by simp, ?_⟩, rfl, rfl⟩
  rw [Runs.run, h]
  rfl

section
variable {c' : Config τ α} {l : Local α}

theorem At.self (h : At t c l c') : c'.locals t = l := by
  rw [h.locals, Function.update_self]

theorem At.goto (h : At t c l c') (l' : Local α) (haccess : c'.access t false = some (c'.goto t l')) :
    At t c l' (c'.goto t l') := by
  refine ⟨h.leads.trans (leads_access haccess), h.queue, ?_⟩
  unfold Config.goto
  dsimp only
  rw [h.locals, Function.update_idem]

theorem At.alone (hidle : c.locals t = .idle) (h : At t c .idle c') : Alone t c c.queue :=
  h.leads.alone h.queue (h.locals.trans (locals_back hidle))

theorem At.push_completes {v : α} (hidle : c.locals t = .idle)
    (h : At t c (.pushExchange v c.queue.tail) c') :
    Alone t c ((({ c.queue with tail := c.queue.tail + 1 } : Queue α).setData c.queue.tail v).setSequence
      c.queue.tail (c.queue.tail + 1)) := by
  let claimed := c'.claimTail t v c.queue.tail
  let written := claimed.writeData t v c.queue.tail c'.history.claims.length
  have hclaim : c'.access t false = some claimed := by
    simp [Config.access, h.self, h.queue, claimed]
  have hwrite : claimed.access t false = some written := by
    simp only [claimed, Config.access, Config.claimTail, Function.update_self]
    rfl
  have hpublish : written.access t false =
      some (written.publish t c.queue.tail c'.history.claims.length) := by
    simp only [written, Config.access, Config.writeData, Config.goto, Function.update_self]
  have hleads := ((h.leads.trans (leads_access hclaim)).trans (leads_access hwrite)).trans
    (leads_access hpublish)
  refine hleads.alone ?_ ?_
  · simp only [claimed, written, Config.publish, Config.writeData, Config.claimTail, h.queue]
  · simp only [claimed, written, Config.publish, Config.writeData, Config.claimTail, Config.goto, h.locals,
      Function.update_idem, locals_back hidle]

theorem At.pull_completes (hidle : c.locals t = .idle) (h : At t c (.pullExchange c.queue.head) c') :
    Alone t c (({ c.queue with head := c.queue.head + 1 } : Queue α).setSequence c.queue.head
      (c.queue.head + c.queue.bufferMask + 1)) := by
  let claimed := c'.claimHead t c.queue.head
  let read := claimed.readData t c.queue.head c'.history.heads
  have hclaim : c'.access t false = some claimed := by
    simp [Config.access, h.self, h.queue, claimed]
  have hread : claimed.access t false = some read := by
    simp only [claimed, Config.access, Config.claimHead, Function.update_self]
    rfl
  have hrelease : read.access t false =
      some (read.release t c.queue.head c'.history.heads (claimed.queue.cell c.queue.head).data) := by
    simp only [read, Config.access, Config.readData, Config.goto, Function.update_self]
  have hleads := ((h.leads.trans (leads_access hclaim)).trans (leads_access hread)).trans
    (leads_access hrelease)
  refine hleads.alone ?_ ?_
  · simp only [claimed, read, Config.release, Config.readData, Config.claimHead, Config.goto, h.queue]
  · simp only [claimed, read, Config.release, Config.readData, Config.claimHead, Config.goto, h.locals,
      Function.update_idem, locals_back hidle]

end

theorem push_alone {v : α} (hidle : c.locals t = .idle) (h : c.queue.push v = some (q, ret)) :
    Alone t c q := by
  have hcall : Config.step c (t, .push v) = some (c.start t (.pushState v)) := by
    simp only [Config.step, Config.call, hidle]
  have hstate := at_start hcall
  unfold Queue.push at h
  dsimp only at h
  split at h
  · rename_i hstopped
    cases h
    exact (hstate.goto .idle (by simp [Config.access, hstate.self, hstate.queue, hstopped])).alone hidle
  rename_i hstopped
  have htail := hstate.goto (.pushTail v)
    (by simp [Config.access, hstate.self, hstate.queue, hstopped])
  have hsequence := htail.goto (.pushSequence v c.queue.tail)
    (by simp only [Config.access, htail.self, htail.queue])
  split at h
  · rename_i hdiff
    cases h
    have hexchange := hsequence.goto (.pushExchange v c.queue.tail)
      (by simp only [Config.access, hsequence.self, hsequence.queue, hdiff, if_true])
    exact hexchange.push_completes hidle
  split at h
  · rename_i hne hneg
    cases h
    have hfull := hsequence.goto .idle
      (by simp only [Config.access, hsequence.self, hsequence.queue, hne, hneg, if_true, if_false])
    exact hfull.alone hidle
  · cases h

theorem pull_alone {d : Option α} (hidle : c.locals t = .idle)
    (h : c.queue.pull = some (q, ret, d)) : Alone t c q := by
  have hcall : Config.step c (t, .pull) = some (c.start t .pullState) := by
    simp only [Config.step, Config.call, hidle]
  have hstate := at_start hcall
  unfold Queue.pull at h
  dsimp only at h
  split at h
  · rename_i hstopped
    cases h
    exact (hstate.goto .idle (by simp [Config.access, hstate.self, hstate.queue, hstopped])).alone hidle
  rename_i hstopped
  have hhead := hstate.goto .pullHead
    (by simp [Config.access, hstate.self, hstate.queue, hstopped])
  have hsequence := hhead.goto (.pullSequence c.queue.head)
    (by simp only [Config.access, hhead.self, hhead.queue])
  split at h
  · rename_i hdiff
    cases h
    have hexchange := hsequence.goto (.pullExchange c.queue.head)
      (by simp only [Config.access, hsequence.self, hsequence.queue, hdiff, if_true])
    exact hexchange.pull_completes hidle
  split at h
  · rename_i hne hneg
    cases h
    have hempty := hsequence.goto .idle
      (by simp only [Config.access, hsequence.self, hsequence.queue, hne, hneg, if_true, if_false])
    exact hempty.alone hidle
  · cases h

end

/-! ## As a bounded list -/

/-- The queue is open and has the values `xs`, with the head at the position `H`. -/
structure HoldsAt (N : Nat) (q : Queue α) (H : Nat) (xs : List α) : Prop where
  running : q.stopped = false
  mask : q.bufferMask = word (N - 1)
  head : q.head = word H
  tail : q.tail = word (H + xs.length)
  fits : xs.length ≤ N
  full : ∀ i x, xs[i]? = some x → q.buffer ((H + i) % N) = ⟨word (H + i + 1), some x⟩
  free : ∀ p, H + xs.length ≤ p → p < H + N → (q.buffer (p % N)).sequence = word p

def Holds (N : Nat) (q : Queue α) (xs : List α) : Prop := ∃ H, HoldsAt N q H xs

section
variable {N H : Nat} {q : Queue α} {xs : List α}

theorem HoldsAt.index_word (h : HoldsAt N q H xs) (hN : IsPow2 N) (p : Nat) :
    q.index (word p) = p % N := hN.index_word h.mask p

theorem HoldsAt.cell_word (h : HoldsAt N q H xs) (hN : IsPow2 N) (p : Nat) :
    q.cell (word p) = q.buffer (p % N) := by
  unfold Queue.cell
  rw [h.index_word hN]

theorem word_sub_neg {a b : Nat} (hlt : a < b) (hb : b ≤ a + 2 ^ 63) :
    (word a - word b).toInt < 0 := by
  have hsub : word a - word b = - word (b - a) := by
    apply BitVec.eq_of_toNat_eq
    simp only [BitVec.toNat_sub, BitVec.toNat_neg, BitVec.toNat_ofNat]
    omega
  rw [hsub, BitVec.toInt_eq_toNat_cond]
  simp only [BitVec.toNat_neg, BitVec.toNat_ofNat]
  split <;> omega

theorem queueInit_holds (size : Nat) : Holds (2 ^ Nat.clog 2 size) (queueInit α size) [] := by
  refine ⟨0, rfl, rfl, rfl, rfl, Nat.zero_le _, by simp, ?_⟩
  intro p _ hp
  simp only [queueInit]
  rw [Nat.mod_eq_of_lt (by omega)]

theorem size_clog {size : Nat} (htwo : 2 ≤ size) (hle : size ≤ 2 ^ 63) : Size (2 ^ Nat.clog 2 size) :=
  ⟨⟨_, Nat.clog_le_of_le_pow hle, rfl⟩, htwo.trans (Nat.le_pow_clog (by omega) size)⟩

theorem setSequence_buffer (pos seq : Word) (i : Nat) :
    (q.setSequence pos seq).buffer i =
      if i = q.index pos then ⟨seq, (q.cell pos).data⟩ else q.buffer i :=
  Function.update_apply ..

theorem setData_setSequence_buffer (pos seq : Word) (v : α) (i : Nat) :
    ((q.setData pos v).setSequence pos seq).buffer i =
      if i = q.index pos then ⟨seq, some v⟩ else q.buffer i := by
  have hcell : (q.setData pos v).cell pos = ⟨(q.cell pos).sequence, some v⟩ :=
    Function.update_self ..
  rw [setSequence_buffer, hcell]
  change (if i = q.index pos then _ else (q.setData pos v).buffer i) = _
  split
  · rfl
  · exact Function.update_of_ne ‹_› ..

theorem HoldsAt.push_full (h : HoldsAt N q H xs) (hN : Size N) (hlen : xs.length = N) (v : α) :
    q.push v = some (q, 0) := by
  have htwo := hN.two
  have hle := hN.le
  have htail := h.tail
  rw [hlen] at htail
  obtain ⟨x, hx⟩ : ∃ x, xs[0]? = some x := ⟨_, List.getElem?_eq_getElem (by omega)⟩
  have hcell : q.cell q.tail = ⟨word (H + 1), some x⟩ := by
    rw [htail, h.cell_word hN.isPow2, Nat.add_mod_right]
    exact h.full 0 x hx
  have hneg : (word (H + 1) - word (H + N)).toInt < 0 := word_sub_neg (by omega) (by omega)
  unfold Queue.push
  rw [hcell, htail]
  dsimp only
  rw [if_neg (by simp [h.running]), if_neg (by omega), if_pos hneg]

theorem HoldsAt.push (h : HoldsAt N q H xs) (hN : IsPow2 N) (hlen : xs.length < N) (v : α) :
    ∃ q', q.push v = some (q', 1) ∧ HoldsAt N q' H (xs ++ [v]) := by
  have hseq := h.free (H + xs.length) (by omega) (by omega)
  have hdiff : ((q.cell q.tail).sequence - q.tail).toInt = 0 := by
    rw [h.tail, h.cell_word hN, hseq, BitVec.sub_self]
    rfl
  refine ⟨(({ q with tail := q.tail + 1 } : Queue α).setData q.tail v).setSequence q.tail
    (q.tail + 1), ?_, ?_⟩
  · unfold Queue.push
    dsimp only
    rw [if_neg (by simp [h.running]), if_pos hdiff]
  · have hindex : ({ q with tail := q.tail + 1 } : Queue α).index q.tail = (H + xs.length) % N := by
      rw [h.tail]
      exact hN.index_word h.mask _
    refine ⟨h.running, h.mask, h.head, ?_, ?_, ?_, ?_⟩
    · change q.tail + 1 = _
      rw [h.tail, word_succ, List.length_append, List.length_singleton, Nat.add_assoc]
    · simp
      omega
    · intro i x hx
      rw [setData_setSequence_buffer, hindex]
      rw [List.getElem?_append] at hx
      split at hx
      · rw [if_neg]
        · exact h.full i x hx
        · intro heq
          have := mod_window heq (by omega) (by omega)
          omega
      · rename_i hge
        obtain ⟨hi, rfl⟩ := List.getElem?_eq_some_iff.mp hx
        rw [List.length_singleton] at hi
        have hi' : i = xs.length := by omega
        subst hi'
        rw [if_pos rfl, h.tail, word_succ]
        simp
    · intro p hlo hhi
      rw [List.length_append, List.length_singleton] at hlo
      rw [setData_setSequence_buffer, hindex, if_neg]
      · exact h.free p (by omega) hhi
      · intro heq
        have := mod_window heq (by omega) (by omega)
        omega

theorem HoldsAt.pull_empty (h : HoldsAt N q H []) (hN : IsPow2 N) :
    q.pull = some (q, 0, none) := by
  have hpos := hN.pos
  have hseq := h.free H (by simp) (by omega)
  have hneg : (word H - word (H + 1)).toInt < 0 := word_sub_neg (by omega) (by omega)
  unfold Queue.pull
  rw [h.head, h.cell_word hN, hseq, word_succ]
  dsimp only
  rw [if_neg (by simp [h.running]), if_neg (by omega), if_pos hneg]

theorem HoldsAt.pull {x : α} (h : HoldsAt N q H (x :: xs)) (hN : IsPow2 N) :
    ∃ q', q.pull = some (q', 1, some x) ∧ HoldsAt N q' (H + 1) xs := by
  have hpos := hN.pos
  have hfits := h.fits
  rw [List.length_cons] at hfits
  have hcell : q.cell q.head = ⟨word (H + 1), some x⟩ := by
    rw [h.head, h.cell_word hN]
    exact h.full 0 x rfl
  have hdiff : ((q.cell q.head).sequence - (q.head + 1)).toInt = 0 := by
    rw [hcell, h.head, word_succ, BitVec.sub_self]
    rfl
  refine ⟨({ q with head := q.head + 1 } : Queue α).setSequence q.head (q.head + q.bufferMask + 1),
    ?_, ?_⟩
  · unfold Queue.pull
    dsimp only
    rw [if_neg (by simp [h.running]), if_pos hdiff, hcell]
  · have hindex : ({ q with head := q.head + 1 } : Queue α).index q.head = H % N := by
      rw [h.head]
      exact hN.index_word h.mask _
    refine ⟨h.running, h.mask, ?_, ?_, by omega, ?_, ?_⟩
    · change q.head + 1 = _
      rw [h.head, word_succ]
    · change q.tail = _
      rw [h.tail, List.length_cons]
      congr 1
      omega
    · intro i y hy
      obtain ⟨hi, -⟩ := List.getElem?_eq_some_iff.mp hy
      rw [setSequence_buffer, hindex, if_neg]
      · rw [Nat.add_right_comm, Nat.add_assoc H i 1]
        exact h.full (i + 1) y hy
      · intro heq
        have := mod_window heq (by omega) (by omega)
        omega
    · intro p hlo hhi
      rw [setSequence_buffer, hindex]
      split
      · rename_i heq
        -- The released cell waits for the position one round later.
        have hp : p = H + N := by
          rw [← Nat.add_mod_right H N] at heq
          exact mod_window heq (by omega) (by omega)
        have hround : H + (N - 1) + 1 = H + N := by omega
        rw [h.head, h.mask, hp, ← BitVec.ofNat_add, word_succ, hround]
      · rename_i hne
        apply h.free p
        · rw [List.length_cons]
          omega
        · have hp : p ≠ H + N := by
            intro hp
            rw [hp, Nat.add_mod_right] at hne
            exact hne rfl
          omega

theorem Holds.push (h : Holds N q xs) (hN : Size N) (v : α) :
    (xs.length = N ∧ q.push v = some (q, 0)) ∨
      (xs.length < N ∧ ∃ q', q.push v = some (q', 1) ∧ Holds N q' (xs ++ [v])) := by
  obtain ⟨H, h⟩ := h
  obtain hlen | hlen := Nat.lt_or_eq_of_le h.fits
  · obtain ⟨q', hq', h'⟩ := h.push hN.isPow2 hlen v
    exact .inr ⟨hlen, q', hq', H, h'⟩
  · exact .inl ⟨hlen, h.push_full hN hlen v⟩

theorem Holds.pull_empty (h : Holds N q []) (hN : Size N) : q.pull = some (q, 0, none) := by
  obtain ⟨H, h⟩ := h
  exact h.pull_empty hN.isPow2

theorem Holds.pull {x : α} (h : Holds N q (x :: xs)) (hN : Size N) :
    ∃ q', q.pull = some (q', 1, some x) ∧ Holds N q' xs := by
  obtain ⟨H, h⟩ := h
  obtain ⟨q', hq', h'⟩ := h.pull hN.isPow2
  exact ⟨q', hq', H + 1, h'⟩

theorem Holds.pushLoop (h : Holds N q xs) (hN : Size N) (i : Nat) {ret : Int} (hret : 0 ≤ ret)
    (vs : List α) :
    ∃ q' ret', q.pushLoop i ret vs = some (q', ret', i + min vs.length (N - xs.length)) ∧
      0 ≤ ret' ∧ Holds N q' (xs ++ vs.take (N - xs.length)) := by
  induction vs generalizing q xs i ret with
  | nil => exact ⟨q, ret, by rw [List.length_nil, Nat.zero_min]; rfl, hret, by simpa using h⟩
  | cons v vs ih =>
    rw [Queue.pushLoop_cons]
    obtain ⟨hlen, hpush⟩ | ⟨hlen, q₁, hpush, h₁⟩ := h.push hN v
    · refine ⟨q, 0, ?_, by omega, ?_⟩
      · simp [hpush, hlen]
      · simpa [hlen] using h
    · obtain ⟨q₂, ret₂, hloop, hret₂, h₂⟩ := ih h₁ (i + 1) (by omega : (0 : Int) ≤ 1)
      rw [List.length_append, List.length_singleton] at hloop h₂
      have hroom : N - xs.length = N - (xs.length + 1) + 1 := by omega
      refine ⟨q₂, ret₂, ?_, hret₂, ?_⟩
      · rw [hpush]
        dsimp only
        rw [if_neg (by omega), hloop, hroom, List.length_cons]
        congr 3
        omega
      · rw [hroom, List.take_succ_cons]
        simpa using h₂

theorem Holds.pushMany (h : Holds N q xs) (hN : Size N) (vs : List α) :
    ∃ q', q.pushMany vs = some (q', ((min vs.length (N - xs.length) : Nat) : Int)) ∧
      Holds N q' (xs ++ vs.take (N - xs.length)) := by
  obtain ⟨q', ret, hloop, hret, h'⟩ := h.pushLoop hN 0 (le_refl (0 : Int)) vs
  refine ⟨q', ?_, h'⟩
  rw [Queue.pushMany, hloop, Option.map_some]
  dsimp only
  rw [if_neg (by omega), Nat.zero_add]

theorem Holds.pullLoop (h : Holds N q xs) (hN : Size N) {ret : Int} (hret : 0 ≤ ret)
    (ptrs : List α) (cnt : Nat) :
    ∃ q' ret', q.pullLoop ret ptrs cnt = some (q', ret', ptrs ++ xs.take cnt) ∧ 0 ≤ ret' ∧
      Holds N q' (xs.drop cnt) := by
  induction cnt generalizing q xs ret ptrs with
  | zero => exact ⟨q, ret, by simp [Queue.pullLoop], hret, by simpa using h⟩
  | succ cnt ih =>
    unfold Queue.pullLoop
    cases xs with
    | nil => exact ⟨q, 0, by simp [h.pull_empty hN], by omega, by simpa using h⟩
    | cons x xs =>
      obtain ⟨q₁, hpull, h₁⟩ := h.pull hN
      obtain ⟨q₂, ret₂, hloop, hret₂, h₂⟩ := ih h₁ (by omega : (0 : Int) ≤ 1) (ptrs ++ [x])
      refine ⟨q₂, ret₂, ?_, hret₂, by simpa using h₂⟩
      simp [hpull, hloop]

theorem Holds.pullMany (h : Holds N q xs) (hN : Size N) (cnt : Nat) :
    ∃ q', q.pullMany cnt = some (q', ((min cnt xs.length : Nat) : Int), xs.take cnt) ∧
      Holds N q' (xs.drop cnt) := by
  obtain ⟨q', ret, hloop, hret, h'⟩ := h.pullLoop hN (le_refl (0 : Int)) [] cnt
  refine ⟨q', ?_, h'⟩
  rw [Queue.pullMany, hloop, Option.map_some, List.nil_append]
  dsimp only
  rw [if_neg (by omega), List.length_take]

theorem HoldsAt.available (h : HoldsAt N q H xs) (hN : IsPow2 N) :
    q.available.toNat = xs.length := by
  have hfits := h.fits
  have hle := hN.le
  rw [Queue.available, h.head, h.tail, BitVec.toNat_sub]
  simp only [BitVec.toNat_ofNat]
  omega

theorem Holds.available (h : Holds N q xs) (hN : Size N) : q.available.toNat = xs.length := by
  obtain ⟨H, h⟩ := h
  exact h.available hN.isPow2

end

end VillasNode.Mpmc
