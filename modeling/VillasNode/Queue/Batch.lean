import VillasNode.Lib.MachineInt
import VillasNode.Queue.Fifo

/-!
# Batches

`queue_push_many` and `queue_pull_many` with the variable `ret`, which is not
initialised for an empty batch, the conversion of the count to `int`, and the
array that is written.
-/

namespace VillasNode.Mpmc

open MachineInt

variable {α : Type*}

namespace Queue

/-- `queue_push_many`. `garbage` is what `ret` contains at the start. -/
def queuePushMany (q : Queue α) (garbage : Int) (vs : List α) : Option (Queue α × Int) :=
  (q.pushLoop 0 garbage vs).map fun (q, ret, i) => (q, if ret = -1 ∧ i = 0 then -1 else toInt i)

/-- The loop of `queue_pull_many` over the `n` pulls that are left, with the array `ptr`. -/
def queuePullLoop (q : Queue α) (i : Nat) (ret : Int) (ptr : Nat → Option α) :
    Nat → Option (Queue α × Int × Nat × (Nat → Option α))
  | 0 => some (q, ret, i, ptr)
  | n + 1 =>
    match q.pull with
    | none => none
    | some (q, ret, d) =>
      if ret ≤ 0 then some (q, ret, i, ptr)
      else queuePullLoop q (i + 1) ret (Function.update ptr i d) n

theorem queuePullLoop_succ (q : Queue α) (i : Nat) (ret : Int) (ptr : Nat → Option α) (n : Nat) :
    q.queuePullLoop i ret ptr (n + 1) =
      match q.pull with
      | none => none
      | some (q, ret, d) =>
        if ret ≤ 0 then some (q, ret, i, ptr)
        else q.queuePullLoop (i + 1) ret (Function.update ptr i d) n := rfl

def queuePullMany (q : Queue α) (garbage : Int) (ptr : Nat → Option α) (cnt : Nat) :
    Option (Queue α × Int × (Nat → Option α)) :=
  (q.queuePullLoop 0 garbage ptr cnt).map fun (q, ret, i, ptr) =>
    (q, if ret = -1 ∧ i = 0 then -1 else toInt i, ptr)

end Queue

/-! ## The specification -/

/-- The queue, open or closed, has the values `xs`. -/
def Content (N : Nat) (q : Queue α) (xs : List α) : Prop :=
  Holds N { q with stopped := false } xs

/-- A closed queue takes no values. -/
def room (N : Nat) (q : Queue α) (xs : List α) : Nat := if q.stopped then 0 else N - xs.length

/-- What a batch returns when `r` values were moved. -/
def batchResult (q : Queue α) (r : Nat) : Int := if q.stopped = true ∧ r = 0 then -1 else r

/-- The first `r` values of the array are appended, and nothing else changes. -/
def PushesMany (N : Nat) (q : Queue α) (xs : List α) (garbage : Int) (vs : List α) : Prop :=
  let r := min vs.length (room N q xs)
  ∃ q', q.queuePushMany garbage vs = some (q', batchResult q r) ∧
    Content N q' (xs ++ vs.take r) ∧ q'.stopped = q.stopped

/-- The `r` oldest values are moved to the front of the array, and nothing else changes. -/
def PullsMany (N : Nat) (q : Queue α) (xs : List α) (garbage : Int) (ptr : Nat → Option α)
    (cnt : Nat) : Prop :=
  let r := min cnt xs.length
  ∃ q', q.queuePullMany garbage ptr cnt =
      some (q', batchResult q r, fun i => if i < r then xs[i]? else ptr i) ∧
    Content N q' (xs.drop r) ∧ q'.stopped = q.stopped

/-- The batch is not empty, the count fits into an `int`, and a queue of one cell is closed or has
room for all. -/
def PushesRight (N : Nat) (q : Queue α) (xs vs : List α) : Prop :=
  0 < vs.length ∧ min vs.length (room N q xs) < 2 ^ 31 ∧
    (q.stopped = true ∨ 2 ≤ N ∨ vs.length ≤ N - xs.length)

/-- The batch is not empty, the count fits into an `int`, and a closed queue has no values. -/
def PullsRight (q : Queue α) (xs : List α) (cnt : Nat) : Prop :=
  0 < cnt ∧ min cnt xs.length < 2 ^ 31 ∧ (q.stopped = true → xs = [])

/-! ## Content -/

section
variable {N H : Nat} {q : Queue α} {xs : List α} {garbage : Int}

theorem content_open (hopen : q.stopped = false) : Content N q xs ↔ Holds N q xs := by
  obtain ⟨stopped, bufferMask, tail, head, buffer⟩ := q
  cases hopen
  exact Iff.rfl

theorem Content.available (h : Content N q xs) (hN : IsPow2 N) :
    q.available.toNat = xs.length := by
  obtain ⟨H, h⟩ := h
  exact h.available hN

theorem holds_running (h : Holds N q xs) : q.stopped = false := by
  obtain ⟨H, h⟩ := h
  exact h.running

/-! ## Pushes -/

theorem queuePushMany_nil :
    q.queuePushMany garbage [] = some (q, if garbage = -1 then -1 else 0) := by
  change some (q, if garbage = -1 ∧ (0 : Nat) = 0 then (-1 : Int) else toInt 0) = _
  simp [toInt]

theorem queuePushMany_stopped (hstopped : q.stopped = true) (v : α) (vs : List α) :
    q.queuePushMany garbage (v :: vs) = some (q, -1) := by
  have hpush : q.push v = some (q, -1) := if_pos hstopped
  rw [Queue.queuePushMany, Queue.pushLoop_cons, hpush]
  rfl

theorem Holds.queuePushMany (h : Holds N q xs) (hN : Size N) (garbage : Int) (v : α)
    (vs : List α) :
    ∃ q', q.queuePushMany garbage (v :: vs) =
        some (q', toInt (min (v :: vs).length (N - xs.length))) ∧
      Holds N q' (xs ++ (v :: vs).take (N - xs.length)) := by
  obtain ⟨q', ret, hloop, hret, h'⟩ := h.pushLoop hN 0 (le_refl (0 : Int)) (v :: vs)
  refine ⟨q', ?_, h'⟩
  change ((q.pushLoop 0 0 (v :: vs)).map _) = _
  rw [hloop, Option.map_some]
  dsimp only
  rw [if_neg (by omega), Nat.zero_add]

theorem HoldsAt.queuePushMany_one (h : HoldsAt N q H []) (hN : IsPow2 N) (garbage : Int) (v : α) :
    ∃ q', q.queuePushMany garbage [v] = some (q', 1) ∧ Holds N q' [v] := by
  obtain ⟨q', hpush, h'⟩ := h.push hN hN.pos v
  refine ⟨q', ?_, H, h'⟩
  rw [Queue.queuePushMany, Queue.pushLoop_cons, hpush]
  rfl

theorem Endless.pushLoop (h : Endless q) (i : Nat) (ret : Int) (vs : List α) :
    ∃ q' result, q.pushLoop i ret vs = some (q', result) ∧ q'.tail = q.tail + word vs.length ∧
      q'.head = q.head := by
  induction vs generalizing q i ret with
  | nil => exact ⟨q, _, rfl, by simp, rfl⟩
  | cons v vs ih =>
    obtain ⟨q₁, hpush, h₁, htail₁, hhead₁⟩ := h.push v
    obtain ⟨q₂, result, hloop, htail₂, hhead₂⟩ := ih h₁ (i + 1) 1
    refine ⟨q₂, result, ?_, ?_, hhead₂.trans hhead₁⟩
    · rw [Queue.pushLoop_cons, hpush]
      exact hloop
    · have hword : word (1 + vs.length) = 1 + word vs.length := BitVec.ofNat_add ..
      rw [htail₂, htail₁, List.length_cons, Nat.add_comm vs.length 1, hword, BitVec.add_assoc]

theorem HoldsAt.not_pushesMany (h : HoldsAt 1 q H xs) {vs : List α} (hcnt : vs.length < 2 ^ 64)
    (hmore : 1 - xs.length < vs.length) : ¬ PushesMany 1 q xs garbage vs := by
  rintro ⟨q', hmany, hcontent, -⟩
  obtain ⟨q₁, result, hloop, htail, hhead⟩ := h.endless.pushLoop 0 garbage vs
  unfold Queue.queuePushMany at hmany
  rw [hloop] at hmany
  obtain ⟨rfl, -⟩ := Prod.mk.inj (Option.some.inj hmany)
  have hfits := h.fits
  have hroom : room 1 q xs = 1 - xs.length := by simp [room, h.running]
  have hstored := hcontent.available isPow2_one
  have hwas := h.available isPow2_one
  rw [List.length_append, List.length_take, hroom] at hstored
  rw [Queue.available, htail, hhead, BitVec.toNat_sub, BitVec.toNat_add] at hstored
  rw [Queue.available, BitVec.toNat_sub] at hwas
  simp only [BitVec.toNat_ofNat] at hstored
  have := q.tail.isLt
  have := q.head.isLt
  omega

theorem batchResult_open (hopen : q.stopped = false) (r : Nat) : batchResult q r = r := by
  simp [batchResult, hopen]

theorem room_open (hopen : q.stopped = false) : room N q xs = N - xs.length := by
  simp [room, hopen]

theorem not_pushesMany_nil : ¬ ∀ garbage, PushesMany N q xs garbage [] := by
  intro hall
  -- An open queue returns -1 for one value of the variable, a closed one 0 for another.
  obtain ⟨q', hmany, -⟩ := hall (if q.stopped then 0 else -1)
  rw [queuePushMany_nil] at hmany
  cases hstopped : q.stopped <;> simp [hstopped, batchResult] at hmany

theorem pushesMany_stopped (h : Content N q xs) (hstopped : q.stopped = true) (v : α)
    (vs : List α) : PushesMany N q xs garbage (v :: vs) := by
  have hroom : room N q xs = 0 := if_pos hstopped
  refine ⟨q, ?_, by simpa [hroom] using h, rfl⟩
  simp [queuePushMany_stopped hstopped, hroom, batchResult, hstopped]

theorem Holds.pushesMany_iff (h : Holds N q xs) (hN : Size N) (v : α) (vs : List α) :
    PushesMany N q xs garbage (v :: vs) ↔ min (v :: vs).length (N - xs.length) < 2 ^ 31 := by
  have hopen := holds_running h
  have htake : (v :: vs).take (min (v :: vs).length (N - xs.length)) =
      (v :: vs).take (N - xs.length) := by
    rw [List.take_eq_take_iff]
    omega
  obtain ⟨q₁, hmany₁, hholds⟩ := h.queuePushMany hN garbage v vs
  have hrunning := holds_running hholds
  unfold PushesMany
  dsimp only
  rw [room_open hopen, batchResult_open hopen, hmany₁]
  constructor
  · rintro ⟨q', hmany, -⟩
    by_contra hlarge
    exact toInt_ne (Nat.not_lt.mp hlarge) (Prod.mk.inj (Option.some.inj hmany)).2
  · intro hlt
    refine ⟨q₁, by rw [toInt_of_lt hlt], ?_, hrunning.trans hopen.symm⟩
    rw [htake, content_open hrunning]
    exact hholds

theorem HoldsAt.pushesMany_one_iff (h : HoldsAt 1 q H xs) (v : α) (vs : List α)
    (hcnt : (v :: vs).length < 2 ^ 64) :
    PushesMany 1 q xs garbage (v :: vs) ↔ (v :: vs).length ≤ 1 - xs.length := by
  by_cases hmore : 1 - xs.length < (v :: vs).length
  · exact iff_of_false (h.not_pushesMany hcnt hmore) (Nat.not_le.mpr hmore)
  · refine iff_of_true ?_ (Nat.not_lt.mp hmore)
    rw [List.length_cons] at hmore
    obtain rfl : xs = [] := List.eq_nil_of_length_eq_zero (by omega)
    obtain rfl : vs = [] := List.eq_nil_of_length_eq_zero (by omega)
    obtain ⟨q', hmany, hholds⟩ := h.queuePushMany_one isPow2_one garbage v
    have hrunning := holds_running hholds
    refine ⟨q', ?_, ?_, hrunning.trans h.running.symm⟩
    · simpa [room_open h.running, batchResult_open h.running] using hmany
    · rw [content_open hrunning]
      simpa [room_open h.running] using hholds

theorem pushesMany_iff (hN : IsPow2 N) (h : Content N q xs) (vs : List α)
    (hcnt : vs.length < 2 ^ 64) :
    (∀ garbage, PushesMany N q xs garbage vs) ↔ PushesRight N q xs vs := by
  cases vs with
  | nil => exact iff_of_false not_pushesMany_nil fun hright => absurd hright.1 (by simp)
  | cons v vs =>
    cases hstopped : q.stopped with
    | true =>
      have hroom : room N q xs = 0 := if_pos hstopped
      exact iff_of_true (fun _ => pushesMany_stopped h hstopped v vs)
        ⟨by simp, by simp [hroom], .inl hstopped⟩
    | false =>
      have hholds := (content_open hstopped).mp h
      have hroom : room N q xs = N - xs.length := room_open hstopped
      by_cases htwo : 2 ≤ N
      · simp [hholds.pushesMany_iff ⟨hN, htwo⟩, PushesRight, hroom, htwo]
      · obtain ⟨H, hH⟩ := hholds
        have hpos := hN.pos
        obtain rfl : N = 1 := by omega
        simp only [hH.pushesMany_one_iff v vs hcnt, PushesRight, hroom, hstopped]
        simp
        omega

/-! ## Pulls -/

section
variable {ptr : Nat → Option α} {cnt : Nat}

theorem queuePullMany_zero :
    q.queuePullMany garbage ptr 0 = some (q, if garbage = -1 then -1 else 0, ptr) := by
  change some (q, if garbage = -1 ∧ (0 : Nat) = 0 then (-1 : Int) else toInt 0, ptr) = _
  simp [toInt]

theorem queuePullMany_stopped (hstopped : q.stopped = true) (hcnt : 0 < cnt) :
    q.queuePullMany garbage ptr cnt = some (q, -1, ptr) := by
  have hpull : q.pull = some (q, -1, none) := if_pos hstopped
  obtain ⟨n, rfl⟩ := Nat.exists_eq_add_of_lt hcnt
  rw [Queue.queuePullMany, Queue.queuePullLoop_succ, hpull]
  rfl

theorem stored_none (i : Nat) (f ptr : Nat → Option α) :
    (fun j => if i ≤ j ∧ j < i + 0 then f j else ptr j) = ptr := by
  funext j
  rw [if_neg (by omega)]

theorem HoldsAt.queuePullLoop (h : HoldsAt N q H xs) (hN : IsPow2 N) (i : Nat) {ret : Int}
    (hret : 0 ≤ ret) (ptr : Nat → Option α) (cnt : Nat) :
    ∃ q' ret', q.queuePullLoop i ret ptr cnt =
        some (q', ret', i + min cnt xs.length,
          fun j => if i ≤ j ∧ j < i + min cnt xs.length then xs[j - i]? else ptr j) ∧
      0 ≤ ret' ∧ Holds N q' (xs.drop cnt) := by
  induction cnt generalizing q H xs i ret ptr with
  | zero =>
    refine ⟨q, ret, ?_, hret, H, h⟩
    rw [Nat.zero_min, stored_none]
    rfl
  | succ cnt ih =>
    rw [Queue.queuePullLoop_succ]
    cases xs with
    | nil =>
      refine ⟨q, 0, ?_, by omega, H, h⟩
      rw [h.pull_empty hN, List.length_nil, Nat.min_zero, stored_none]
      rfl
    | cons x xs =>
      obtain ⟨q₁, hpull, h₁⟩ := h.pull hN
      obtain ⟨q₂, ret₂, hloop, hret₂, h₂⟩ :=
        ih h₁ (i + 1) (by omega : (0 : Int) ≤ 1) (Function.update ptr i (some x))
      refine ⟨q₂, ret₂, ?_, hret₂, h₂⟩
      rw [hpull]
      dsimp only
      have hcount : i + 1 + min cnt xs.length = i + min (cnt + 1) (xs.length + 1) := by omega
      rw [if_neg (by omega), hloop, List.length_cons, hcount]
      refine congrArg (fun ptr => some (q₂, ret₂, _, ptr)) (funext fun j => ?_)
      by_cases hj : j = i
      · subst hj
        rw [if_neg (by omega), if_pos (by omega), Function.update_self, Nat.sub_self]
        rfl
      · rw [Function.update_of_ne hj]
        by_cases hin : i + 1 ≤ j ∧ j < i + min (cnt + 1) (xs.length + 1)
        · have hplace : j - i = (j - (i + 1)) + 1 := by omega
          rw [if_pos hin, if_pos (by omega), hplace, List.getElem?_cons_succ]
        · rw [if_neg hin, if_neg (by omega)]

theorem Holds.queuePullMany (h : Holds N q xs) (hN : IsPow2 N) (garbage : Int)
    (ptr : Nat → Option α) (hcnt : 0 < cnt) :
    ∃ q', q.queuePullMany garbage ptr cnt =
        some (q', toInt (min cnt xs.length),
          fun j => if j < min cnt xs.length then xs[j]? else ptr j) ∧
      Holds N q' (xs.drop cnt) := by
  obtain ⟨H, h⟩ := h
  obtain ⟨n, rfl⟩ := Nat.exists_eq_add_of_lt hcnt
  obtain ⟨q', ret, hloop, hret, h'⟩ := h.queuePullLoop hN 0 (le_refl (0 : Int)) ptr (0 + n + 1)
  refine ⟨q', ?_, h'⟩
  change ((q.queuePullLoop 0 0 ptr (0 + n + 1)).map _) = _
  rw [hloop, Option.map_some]
  dsimp only
  rw [if_neg (by omega)]
  simp

theorem not_pullsMany_zero : ¬ ∀ garbage, PullsMany N q xs garbage ptr 0 := by
  intro hall
  obtain ⟨q', hmany, -⟩ := hall (if q.stopped then 0 else -1)
  rw [queuePullMany_zero] at hmany
  cases hstopped : q.stopped <;> simp [hstopped, batchResult] at hmany

theorem pullsMany_stopped_iff (hN : IsPow2 N) (h : Content N q xs) (hstopped : q.stopped = true)
    (hcnt : 0 < cnt) : PullsMany N q xs garbage ptr cnt ↔ xs = [] := by
  unfold PullsMany
  dsimp only
  rw [queuePullMany_stopped hstopped hcnt]
  constructor
  · rintro ⟨q', hmany, hcontent, -⟩
    obtain rfl : q = q' := (Prod.mk.inj (Option.some.inj hmany)).1
    have hwas := h.available hN
    have hleft := hcontent.available hN
    rw [List.length_drop] at hleft
    exact List.eq_nil_of_length_eq_zero (by omega)
  · rintro rfl
    exact ⟨q, by simp [batchResult, hstopped], by simpa using h, rfl⟩

theorem Holds.pullsMany_iff (h : Holds N q xs) (hN : IsPow2 N) (hcnt : 0 < cnt) :
    PullsMany N q xs garbage ptr cnt ↔ min cnt xs.length < 2 ^ 31 := by
  have hopen := holds_running h
  obtain ⟨q₁, hmany₁, hholds⟩ := h.queuePullMany hN garbage ptr hcnt
  have hrunning := holds_running hholds
  have hdrop : xs.drop (min cnt xs.length) = xs.drop cnt := by
    obtain hle | hle := Nat.le_total cnt xs.length
    · rw [Nat.min_eq_left hle]
    · rw [Nat.min_eq_right hle, List.drop_length, List.drop_of_length_le hle]
  unfold PullsMany
  dsimp only
  rw [batchResult_open hopen, hmany₁]
  constructor
  · rintro ⟨q', hmany, -⟩
    by_contra hlarge
    have hresult := (Prod.mk.inj (Prod.mk.inj (Option.some.inj hmany)).2).1
    exact toInt_ne (Nat.not_lt.mp hlarge) hresult
  · intro hlt
    refine ⟨q₁, by rw [toInt_of_lt hlt], ?_, hrunning.trans hopen.symm⟩
    rw [hdrop, content_open hrunning]
    exact hholds

theorem pullsMany_iff (hN : IsPow2 N) (h : Content N q xs) (ptr : Nat → Option α) (cnt : Nat) :
    (∀ garbage, PullsMany N q xs garbage ptr cnt) ↔ PullsRight q xs cnt := by
  obtain rfl | hcnt := Nat.eq_zero_or_pos cnt
  · exact iff_of_false not_pullsMany_zero fun hright => absurd hright.1 (by omega)
  cases hstopped : q.stopped with
  | true =>
    simp only [pullsMany_stopped_iff hN h hstopped hcnt]
    constructor
    · intro hall
      obtain rfl := hall 0
      exact ⟨hcnt, by simp, fun _ => rfl⟩
    · rintro ⟨-, -, hempty⟩ garbage
      exact hempty hstopped
  | false =>
    have hholds := (content_open hstopped).mp h
    simp [hholds.pullsMany_iff hN hcnt, PullsRight, hstopped, hcnt]

end

end

/-- For every state of the queue, every batch and every array: both functions do what they should,
whatever the variable contains, exactly for the batches named. -/
theorem batches_iff {N : Nat} {q : Queue α} {xs : List α} (hN : IsPow2 N) (h : Content N q xs)
    (vs : List α) (hvs : vs.length < 2 ^ 64) (ptr : Nat → Option α) (cnt : Nat) :
    ((∀ garbage, PushesMany N q xs garbage vs) ↔ PushesRight N q xs vs) ∧
      ((∀ garbage, PullsMany N q xs garbage ptr cnt) ↔ PullsRight q xs cnt) :=
  ⟨pushesMany_iff hN h vs hvs, pullsMany_iff hN h ptr cnt⟩

theorem queueInit_content (size : Nat) : Content (2 ^ Nat.clog 2 size) (queueInit α size) [] :=
  queueInit_holds size

/-- Two values into an empty queue for two. -/
theorem batches_two :
    ((∀ garbage, PushesMany 2 (queueInit Nat 2) [] garbage [7, 8]) ↔
        PushesRight 2 (queueInit Nat 2) [] [7, 8]) ∧
      ((∀ garbage, PullsMany 2 (queueInit Nat 2) [] garbage (fun _ => none) 2) ↔
        PullsRight (queueInit Nat 2) [] 2) :=
  batches_iff ⟨1, by decide, by decide⟩ (queueInit_content 2) [7, 8] (by decide) _ 2

/-- An empty batch for an open queue returns -1 when `ret` happens to contain it. -/
theorem empty_batch_fails :
    ((queueInit Nat 2).queuePushMany (-1) []).map Prod.snd = some (-1) ∧
      ((queueInit Nat 2).queuePullMany (-1) (fun _ => none) 0).map (fun r => r.2.1) = some (-1) ∧
      ¬ ∀ garbage, PushesMany 2 (queueInit Nat 2) [] garbage [] ∧
        PullsMany 2 (queueInit Nat 2) [] garbage (fun _ => none) 0 := by
  refine ⟨by decide, by decide, fun h => ?_⟩
  exact not_pushesMany_nil fun garbage => (h garbage).1

end VillasNode.Mpmc
