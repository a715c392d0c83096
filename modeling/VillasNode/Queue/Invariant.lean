import Mathlib.Data.Nat.ModEq
import Mathlib.Tactic.Ring
import VillasNode.Lib.Runs
import VillasNode.Lib.Tickets
import VillasNode.Queue.Model

/-!
# The invariant of the MPMC queue

Positions are counted without wrapping. `T` positions of the tail and `H` of
the head have been claimed. A cell is *free* for the position `p` it serves
next, with the sequence number `p`, or *full* with it, with the number `p + 1`.
A free cell whose position is claimed has exactly one thread that fills it, a
full cell whose position is claimed has exactly one thread that empties it.
-/

namespace VillasNode.Mpmc

variable {τ α : Type*}

/-- The word that stands for the count `n`. -/
abbrev word (n : Nat) : Word := BitVec.ofNat 64 n

theorem word_inj {a b : Nat} (h : word a = word b) (hab : a < b + 2 ^ 64) (hba : b < a + 2 ^ 64) :
    a = b := by
  have := congrArg BitVec.toNat h
  simp only [BitVec.toNat_ofNat] at this
  omega

theorem word_succ (n : Nat) : word n + 1 = word (n + 1) := by
  simp [BitVec.ofNat_add]

/-- The position that a thread has claimed and not yet published. -/
def Local.filling : Local α → Option Nat
  | .pushData _ _ p | .pushPublish _ _ p => some p
  | _ => none

/-- The position that a thread has claimed and not yet released. -/
def Local.emptying : Local α → Option Nat
  | .pullData _ p | .pullRelease _ p _ => some p
  | _ => none

/-- What a thread knows at each place. `data` and `sequences` are by cell. -/
def LocalOk (N : Nat) (claims : List α) (H : Nat) (sequences : Nat → Nat) (data : Nat → Option α)
    (began : Nat × Nat) : Local α → Prop
  | .idle | .pushState _ | .pushTail _ | .pullState | .pullHead => True
  | .pushSequence _ pos => ∃ P, pos = word P ∧ began.1 ≤ P ∧ P ≤ claims.length
  | .pushExchange _ pos => ∃ P, pos = word P ∧ began.1 ≤ P ∧ P ≤ claims.length ∧
      (P = claims.length → sequences (P % N) = P)
  | .pushData v pos p => pos = word p ∧ H ≤ p ∧ p < claims.length ∧ sequences (p % N) = p ∧
      claims[p]? = some v
  | .pushPublish v pos p => pos = word p ∧ H ≤ p ∧ p < claims.length ∧ sequences (p % N) = p ∧
      claims[p]? = some v ∧ data (p % N) = some v
  | .pullSequence pos => ∃ P, pos = word P ∧ began.2 ≤ P ∧ P ≤ H
  | .pullExchange pos => ∃ P, pos = word P ∧ began.2 ≤ P ∧ P ≤ H ∧
      (P = H → sequences (P % N) = P + 1)
  | .pullData pos p => pos = word p ∧ p < H ∧ claims.length ≤ p + N ∧ sequences (p % N) = p + 1 ∧
      data (p % N) = claims[p]?
  | .pullRelease pos p d => pos = word p ∧ p < H ∧ claims.length ≤ p + N ∧
      sequences (p % N) = p + 1 ∧ d = claims[p]?

structure Free (N : Nat) (s : History τ α) (i p : Nat) : Prop where
  cell : p % N = i
  sequence : s.sequences i = p
  low : s.heads ≤ p
  high : p < s.heads + N
  room : s.claims.length ≤ p + N
  pending : p ∉ s.pushed

structure Full (N : Nat) (q : Queue α) (s : History τ α) (i p : Nat) : Prop where
  cell : p % N = i
  sequence : s.sequences i = p + 1
  claimed : p < s.claims.length
  room : s.claims.length ≤ p + N
  data : (q.buffer i).data = s.claims[p]?

structure Inv (N : Nat) (c : Config τ α) : Prop where
  mask : c.queue.bufferMask = word (N - 1)
  tail : c.queue.tail = word c.history.claims.length
  head : c.queue.head = word c.history.heads
  order : c.history.heads ≤ c.history.claims.length
  stored : c.history.claims.length ≤ c.history.heads + N
  words : ∀ i < N, (c.queue.buffer i).sequence = word (c.history.sequences i)
  cells : ∀ i < N, (∃ p, Free N c.history i p) ∨ ∃ p, Full N c.queue c.history i p
  began : ∀ t, (c.history.began t).1 ≤ c.history.claims.length ∧
    (c.history.began t).2 ≤ c.history.heads
  threads : ∀ t, LocalOk N c.history.claims c.history.heads c.history.sequences
    (fun i => (c.queue.buffer i).data) (c.history.began t) (c.locals t)
  pushes : Tickets.Ledger (Local.filling ∘ c.locals) c.history.claims.length c.history.pushed
  pulls : Tickets.Ledger (Local.emptying ∘ c.locals) c.history.heads
    (c.history.pulled.map Prod.fst)
  values : ∀ x ∈ c.history.pulled, x.2 = c.history.claims[x.1]?

structure Size (N : Nat) : Prop where
  pow : ∃ k ≤ 63, N = 2 ^ k
  two : 2 ≤ N

variable {N : Nat} {c : Config τ α}

/-- `IS_POW2`, for a number that fits. -/
def IsPow2 (N : Nat) : Prop := ∃ k ≤ 63, N = 2 ^ k

theorem IsPow2.le (hN : IsPow2 N) : N ≤ 2 ^ 63 := by
  obtain ⟨k, hk, rfl⟩ := hN
  exact Nat.pow_le_pow_right (by omega) hk

theorem IsPow2.pos (hN : IsPow2 N) : 0 < N := by
  obtain ⟨k, -, rfl⟩ := hN
  exact Nat.two_pow_pos k

theorem Size.isPow2 (hN : Size N) : IsPow2 N := hN.pow

theorem Size.le (hN : Size N) : N ≤ 2 ^ 63 := hN.isPow2.le

theorem mod_window {p q : Nat} (h : p % N = q % N) (hpq : p < q + N) (hqp : q < p + N) : p = q := by
  rcases Nat.le_total p q with hle | hle
  · have hdvd := (Nat.modEq_iff_dvd' hle).mp h
    have := Nat.eq_zero_of_dvd_of_lt hdvd (by omega)
    omega
  · have hdvd := (Nat.modEq_iff_dvd' hle).mp h.symm
    have := Nat.eq_zero_of_dvd_of_lt hdvd (by omega)
    omega

theorem Size.succ_mod_ne (hN : Size N) (q : Nat) : (q + 1) % N ≠ q % N := by
  have := hN.two
  intro h
  have := mod_window h (by omega) (by omega)
  omega

theorem IsPow2.index_word {q : Queue α} (hN : IsPow2 N) (hmask : q.bufferMask = word (N - 1))
    (p : Nat) : q.index (word p) = p % N := by
  have hle := hN.le
  obtain ⟨k, hk, rfl⟩ := hN
  have hlt : 2 ^ k - 1 < 2 ^ 64 := by omega
  unfold Queue.index
  rw [hmask, BitVec.toNat_and, BitVec.toNat_ofNat, BitVec.toNat_ofNat, Nat.mod_eq_of_lt hlt,
    Nat.and_two_pow_sub_one_eq_mod]
  exact Nat.mod_mod_of_dvd p (Nat.pow_dvd_pow 2 (by omega))

theorem index_word {q : Queue α} (hmask : q.bufferMask = word (N - 1)) (hN : Size N) (p : Nat) :
    q.index (word p) = p % N := hN.isPow2.index_word hmask p

theorem Inv.index_word (h : Inv N c) (hN : Size N) (p : Nat) : c.queue.index (word p) = p % N :=
  Mpmc.index_word h.mask hN p

theorem Inv.cell_word (h : Inv N c) (hN : Size N) (p : Nat) :
    c.queue.cell (word p) = c.queue.buffer (p % N) := by
  unfold Queue.cell
  rw [h.index_word hN]

theorem init_inv (k : Nat) : Inv (2 ^ k) (Config.init τ α (2 ^ k)) := by
  constructor
  · simp [Config.init, queueInit, Nat.clog_pow]
  · rfl
  · rfl
  · exact le_refl _
  · simp [Config.init]
  · intro i _
    rfl
  · intro i hi
    refine .inl ⟨i, Nat.mod_eq_of_lt hi, rfl, Nat.zero_le _, ?_, Nat.zero_le _, ?_⟩
    · simpa [Config.init] using hi
    · simp [Config.init]
  · intro t
    exact ⟨le_refl _, le_refl _⟩
  · intro t
    trivial
  · exact .empty
  · exact .empty
  · simp [Config.init]

end VillasNode.Mpmc
