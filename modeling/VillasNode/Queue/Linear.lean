import Mathlib.Order.Interval.Finset.Nat
import VillasNode.Queue.Steps

/-!
# Linearity of the MPMC queue

Every reachable configuration satisfies the invariant, and the invariant gives
what a user of the queue relies on: a value is pulled at most once, it is the
one that was pushed for its position, and nothing is lost.
-/

namespace VillasNode.Mpmc

variable {τ α : Type*} [DecidableEq τ] {N : Nat} {c c' : Config τ α}

/-- No operation in progress has been overtaken by `2 ^ 63` others. -/
def Recent (c : Config τ α) : Prop :=
  ∀ t, c.history.claims.length - (c.history.began t).1 < 2 ^ 63 ∧
    c.history.heads - (c.history.began t).2 < 2 ^ 63 ∨ c.locals t = .idle

instance [Fintype τ] [DecidableEq α] (c : Config τ α) : Decidable (Recent c) :=
  inferInstanceAs (Decidable (∀ _, _ ∨ _))

theorem eq_of_diff {s p : Word} (h : (s - p).toInt = 0) : s = p := by
  have := BitVec.eq_of_toInt_eq (h.trans BitVec.toInt_zero.symm)
  bv_omega

/-! ## Runs -/

theorem access_inv (hN : Size N) (h : Inv N c) (hrecent : Recent c) {t : τ} {spurious : Bool}
    (hstep : c.access t spurious = some c') : Inv N c' := by
  unfold Config.access at hstep
  have hok := h.threads t
  cases hl : c.locals t with
  | idle =>
    simp [hl] at hstep
  | pushState v =>
    simp only [hl, Option.some.injEq] at hstep
    subst hstep
    split <;> exact h.goto (by rw [hl]; rfl) (by rw [hl]; rfl) trivial
  | pushTail v =>
    simp only [hl, Option.some.injEq] at hstep
    subst hstep
    exact h.loadTail (by rw [hl]; rfl) (by rw [hl]; rfl)
  | pushSequence v pos =>
    simp only [hl, Option.some.injEq] at hstep
    subst hstep
    split
    · exact h.pushSequence hN hl (eq_of_diff ‹_›)
    · split <;> exact h.goto (by rw [hl]; rfl) (by rw [hl]; rfl) trivial
  | pushExchange v pos =>
    rw [hl] at hok
    obtain ⟨P, rfl, hb, hP, hseq⟩ := hok
    simp only [hl] at hstep
    split at hstep
    · obtain ⟨htail, -⟩ := ‹_ ∧ _›
      cases hstep
      rw [h.tail] at htail
      rcases hrecent t with ⟨hr, -⟩ | hidle
      · obtain rfl : P = c.history.claims.length := word_inj htail.symm (by omega) (by omega)
        exact h.claimTail hN (by rw [hl]; rfl) (by rw [hl]; rfl) (hseq rfl)
      · cases hl.symm.trans hidle
    · cases hstep
      exact h.loadTail (by rw [hl]; rfl) (by rw [hl]; rfl)
  | pushData v pos p =>
    simp only [hl, Option.some.injEq] at hstep
    subst hstep
    rw [hl] at hok
    obtain ⟨rfl, -⟩ := hok
    exact h.writeData hN hl
  | pushPublish v pos p =>
    simp only [hl, Option.some.injEq] at hstep
    subst hstep
    rw [hl] at hok
    obtain ⟨rfl, -⟩ := hok
    exact h.publish hN hl
  | pullState =>
    simp only [hl, Option.some.injEq] at hstep
    subst hstep
    split <;> exact h.goto (by rw [hl]; rfl) (by rw [hl]; rfl) trivial
  | pullHead =>
    simp only [hl, Option.some.injEq] at hstep
    subst hstep
    exact h.loadHead (by rw [hl]; rfl) (by rw [hl]; rfl)
  | pullSequence pos =>
    simp only [hl, Option.some.injEq] at hstep
    subst hstep
    split
    · exact h.pullSequence hN hl (eq_of_diff ‹_›)
    · split <;> exact h.goto (by rw [hl]; rfl) (by rw [hl]; rfl) trivial
  | pullExchange pos =>
    rw [hl] at hok
    obtain ⟨P, rfl, hb, hP, hseq⟩ := hok
    simp only [hl] at hstep
    split at hstep
    · obtain ⟨hhead, -⟩ := ‹_ ∧ _›
      cases hstep
      rw [h.head] at hhead
      rcases hrecent t with ⟨-, hr⟩ | hidle
      · obtain rfl : P = c.history.heads := word_inj hhead.symm (by omega) (by omega)
        exact h.claimHead hN (by rw [hl]; rfl) (by rw [hl]; rfl) (hseq rfl)
      · cases hl.symm.trans hidle
    · cases hstep
      exact h.loadHead (by rw [hl]; rfl) (by rw [hl]; rfl)
  | pullData pos p =>
    simp only [hl, Option.some.injEq] at hstep
    subst hstep
    rw [hl] at hok
    obtain ⟨rfl, -⟩ := hok
    exact h.readData hN hl
  | pullRelease pos p d =>
    simp only [hl, Option.some.injEq] at hstep
    subst hstep
    rw [hl] at hok
    obtain ⟨rfl, -⟩ := hok
    exact h.release hN hl

omit [DecidableEq τ] in
theorem call_spec {t : τ} {c₁ : Config τ α} (h : c.call t c₁ = some c') :
    c.locals t = .idle ∧ c' = c₁ := by
  unfold Config.call at h
  split at h
  · exact ⟨‹_›, (Option.some.inj h).symm⟩
  · simp at h

theorem step_inv (hN : Size N) (h : Inv N c) {a : τ × Action α} (hrecent : Recent c)
    (hstep : c.step a = some c') : Inv N c' := by
  obtain ⟨t, a⟩ := a
  cases a with
  | push v =>
    obtain ⟨hidle, rfl⟩ := call_spec hstep
    exact h.start hidle (.inl ⟨v, rfl⟩)
  | pull =>
    obtain ⟨hidle, rfl⟩ := call_spec hstep
    exact h.start hidle (.inr rfl)
  | close =>
    obtain ⟨-, rfl⟩ := call_spec hstep
    refine { h with cells := ?_ }
    intro i hi
    rcases h.cells i hi with hfree | ⟨p, hp⟩
    · exact .inl hfree
    · exact .inr ⟨p, hp.cell, hp.sequence, hp.claimed, hp.room, hp.data⟩
  | access spurious => exact access_inv hN h hrecent hstep

theorem run_inv {k : Nat} (hk : 1 ≤ k) (hword : k ≤ 63) {as : List (τ × Action α)}
    (hrecent : Runs.Along Config.step (fun c _ => Recent c) (Config.init τ α (2 ^ k)) as)
    (hrun : Runs.run Config.step (Config.init τ α (2 ^ k)) as = some c) :
    Size (2 ^ k) ∧ Inv (2 ^ k) c := by
  have hN : Size (2 ^ k) := by
    refine ⟨⟨k, hword, rfl⟩, ?_⟩
    calc 2 = 2 ^ 1 := rfl
      _ ≤ 2 ^ k := Nat.pow_le_pow_right (by omega) hk
  refine ⟨hN, Runs.invariant ?_ (init_inv k) hrecent hrun⟩
  intro c a c' hc hr hs
  exact step_inv hN hc hr hs

/-! ## What a user sees -/

/-- The positions of the values that were pushed and not pulled. -/
def History.remaining (s : History τ α) : List Nat :=
  s.pushed.filter fun p => p ∉ s.pulled.map Prod.fst

def Queue.contents (q : Queue α) : List (Option α) :=
  (List.range (q.tail - q.head).toNat).map fun i => (q.cell (q.head + word i)).data

structure Quiescent (c : Config τ α) : Prop where
  pushed : c.history.pushed.Perm (List.range c.history.claims.length)
  pulled : (c.history.pulled.map Prod.fst).Perm (List.range c.history.heads)
  contents : c.queue.contents = (c.history.claims.drop c.history.heads).map some
  remaining : ∀ p, p ∈ c.history.remaining ↔ c.history.heads ≤ p ∧ p < c.history.claims.length

structure Linear (N : Nat) (c : Config τ α) : Prop where
  pushed_once : c.history.pushed.Nodup
  pulled_once : (c.history.pulled.map Prod.fst).Nodup
  /-- The pull that claimed the head position `p` returns the value of the push that claimed the
  tail position `p`, and that push has returned 1. -/
  pulled_value : ∀ p d, (p, d) ∈ c.history.pulled →
    p ∈ c.history.pushed ∧ ∃ v, c.history.claims[p]? = some v ∧ d = some v
  heads_le : c.history.heads ≤ c.history.claims.length
  claims_le : c.history.claims.length ≤ c.history.heads + N
  remaining_le : c.history.remaining.length ≤ N
  quiescent : (∀ t, c.locals t = .idle) → Quiescent c

omit [DecidableEq τ] in
theorem Inv.pulled_pushed (h : Inv N c) {p : Nat} (hp : p < c.history.heads) :
    p ∈ c.history.pushed := by
  rw [h.pushes.mem_done]
  refine ⟨hp.trans_le h.order, fun t ht => ?_⟩
  have := (h.filling_spec ht).1
  omega

omit [DecidableEq τ] in
theorem Inv.mem_remaining (h : Inv N c) {p : Nat} (hp : p ∈ c.history.remaining) :
    p < c.history.claims.length ∧ c.history.claims.length ≤ p + N := by
  unfold History.remaining at hp
  obtain ⟨hpushed, hpulled⟩ := List.mem_filter.mp hp
  refine ⟨h.pushes.done_lt hpushed, ?_⟩
  have hnot : p ∉ c.history.pulled.map Prod.fst := by simpa using hpulled
  rw [h.pulls.mem_done, not_and] at hnot
  rcases Nat.lt_or_ge p c.history.heads with hlt | hge
  · obtain ⟨t, ht⟩ := not_forall_not.mp (hnot hlt)
    exact (h.emptying_spec ht).2.1
  · have := h.stored
    omega

omit [DecidableEq τ] in
theorem Inv.remaining_length (h : Inv N c) : c.history.remaining.length ≤ N := by
  have hnodup : c.history.remaining.Nodup := h.pushes.nodup.filter _
  have hsub : c.history.remaining.toFinset ⊆
      Finset.Ico (c.history.claims.length - N) c.history.claims.length := by
    intro p hp
    rw [List.mem_toFinset] at hp
    have := h.mem_remaining hp
    rw [Finset.mem_Ico]
    omega
  calc c.history.remaining.length = c.history.remaining.toFinset.card :=
        (List.toFinset_card_of_nodup hnodup).symm
    _ ≤ (Finset.Ico (c.history.claims.length - N) c.history.claims.length).card :=
        Finset.card_le_card hsub
    _ ≤ N := by
        rw [Nat.card_Ico]
        omega

omit [DecidableEq τ] in
theorem Inv.stored_cell (h : Inv N c) (hN : Size N) {p : Nat} (hp : c.history.heads ≤ p)
    (hpushed : p ∈ c.history.pushed) :
    (c.queue.cell (word p)).data = c.history.claims[p]? := by
  have hlt : p % N < N := Nat.mod_lt p (by have := hN.two; omega)
  have hpT := h.pushes.done_lt hpushed
  have hstored := h.stored
  rw [h.cell_word hN]
  rcases h.cells _ hlt with ⟨q, hq⟩ | ⟨q, hq⟩
  · have := hq.high
    have := hq.low
    obtain rfl : q = p := mod_window hq.cell (by omega) (by omega)
    exact absurd hpushed hq.pending
  · have := hq.room
    have := hq.claimed
    obtain rfl : q = p := mod_window hq.cell (by omega) (by omega)
    exact hq.data

omit [DecidableEq τ] in
theorem Inv.contents (h : Inv N c) (hN : Size N)
    (hpushed : ∀ p < c.history.claims.length, p ∈ c.history.pushed) :
    c.queue.contents = (c.history.claims.drop c.history.heads).map some := by
  have horder := h.order
  have hstored := h.stored
  have hle := hN.le
  have hlen : (c.queue.tail - c.queue.head).toNat =
      c.history.claims.length - c.history.heads := by
    rw [h.tail, h.head, BitVec.toNat_sub, BitVec.toNat_ofNat, BitVec.toNat_ofNat]
    omega
  unfold Queue.contents
  rw [hlen]
  apply List.ext_getElem
  · simp
  · intro i hi _
    have hi' : i < c.history.claims.length - c.history.heads := by simpa using hi
    have hcell := h.stored_cell hN (Nat.le_add_right c.history.heads i) (hpushed _ (by omega))
    rw [List.getElem_map, List.getElem_map, List.getElem_range, List.getElem_drop, h.head,
      ← BitVec.ofNat_add, hcell]
    exact List.getElem?_eq_getElem _

omit [DecidableEq τ] in
theorem Inv.quiescent (h : Inv N c) (hN : Size N) (hidle : ∀ t, c.locals t = .idle) :
    Quiescent c := by
  have hfill : ∀ t, (Local.filling ∘ c.locals) t = none := by
    intro t
    rw [Function.comp_apply, hidle t]
    rfl
  have hempty : ∀ t, (Local.emptying ∘ c.locals) t = none := by
    intro t
    rw [Function.comp_apply, hidle t]
    rfl
  have hpushed := h.pushes.perm_range hfill
  have hpulled := h.pulls.perm_range hempty
  constructor
  · exact hpushed
  · exact hpulled
  · apply h.contents hN
    intro p hp
    rwa [hpushed.mem_iff, List.mem_range]
  · intro p
    unfold History.remaining
    rw [List.mem_filter, hpushed.mem_iff, List.mem_range, decide_eq_true_iff, hpulled.mem_iff,
      List.mem_range]
    omega

/-- Any number of threads, any interleaving of their accesses, any number of turns of the
counters. -/
theorem queue_linear {k : Nat} (hk : 1 ≤ k) (hword : k ≤ 63) {as : List (τ × Action α)}
    (hrecent : Runs.Along Config.step (fun c _ => Recent c) (Config.init τ α (2 ^ k)) as)
    (hrun : Runs.run Config.step (Config.init τ α (2 ^ k)) as = some c) : Linear (2 ^ k) c := by
  obtain ⟨hN, h⟩ := run_inv hk hword hrecent hrun
  constructor
  · exact h.pushes.nodup
  · exact h.pulls.nodup
  · intro p d hp
    have hlt : p < c.history.heads := h.pulls.done_lt (List.mem_map_of_mem hp)
    have hT : p < c.history.claims.length := hlt.trans_le h.order
    refine ⟨h.pulled_pushed hlt, c.history.claims[p], ?_, ?_⟩
    · exact List.getElem?_eq_getElem _
    · exact (h.values _ hp).trans (List.getElem?_eq_getElem _)
  · exact h.order
  · exact h.stored
  · exact h.remaining_length
  · exact h.quiescent hN

/-- A pull that begins while the only push is in progress, with one spurious failure. -/
def overtakingPull : List (Bool × Action Nat) :=
  [(true, .push 7), (true, .access false), (true, .access false), (true, .access false),
   (false, .pull), (true, .access false), (false, .access false), (true, .access false),
   (true, .access false), (false, .access false), (false, .access false), (false, .access true),
   (false, .access false), (false, .access false), (false, .access false), (false, .access false)]

theorem queue_linear_overtaking :
    ∃ c, Runs.run Config.step (Config.init Bool Nat (2 ^ 1)) overtakingPull = some c ∧
      c.history.pulled = [(0, some 7)] ∧ Linear (2 ^ 1) c := by
  have hrecent : Runs.Along Config.step (fun c _ => Recent c) (Config.init Bool Nat (2 ^ 1))
      overtakingPull := by
    decide +kernel
  refine ⟨_, rfl, ?_, ?_⟩
  · decide +kernel
  · exact queue_linear (by decide) (by decide) hrecent rfl

end VillasNode.Mpmc
