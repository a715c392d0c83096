import VillasNode.Queue.Invariant

/-!
# What each access keeps

The accesses that only move their own thread are settled together. The six
that change shared state each come with a fact about the one cell they touch.
-/

namespace VillasNode.Mpmc

variable {τ α : Type*} {N : Nat}

/-! ## Threads that are not touched -/

theorem LocalOk.frame {claims claims' : List α} {H H' : Nat} {seq seq' : Nat → Nat}
    {data data' : Nat → Option α} {b : Nat × Nat} {l : Local α}
    (h : LocalOk N claims H seq data b l) (hHT : H ≤ claims.length)
    (hclaims : claims <+: claims') (hH : H ≤ H')
    (hpush : seq (claims.length % N) = claims.length → claims'.length = claims.length →
      seq' (claims.length % N) = claims.length)
    (hpull : seq (H % N) = H + 1 → H' = H → seq' (H % N) = H + 1)
    (hfill : ∀ p, l.filling = some p → H ≤ p → p < claims.length → seq (p % N) = p →
      H' ≤ p ∧ seq' (p % N) = p ∧ data' (p % N) = data (p % N))
    (hempty : ∀ p, l.emptying = some p → p < H → seq (p % N) = p + 1 →
      claims.length ≤ p + N →
      claims'.length ≤ p + N ∧ seq' (p % N) = p + 1 ∧ data' (p % N) = data (p % N)) :
    LocalOk N claims' H' seq' data' b l := by
  have hlen := hclaims.length_le
  have hkeep : ∀ p < claims.length, claims'[p]? = claims[p]? := by
    intro p hp
    obtain ⟨l, rfl⟩ := hclaims
    exact List.getElem?_append_left hp
  cases l with
  | idle | pushState | pushTail | pullState | pullHead => trivial
  | pushSequence v pos =>
    obtain ⟨P, rfl, hb, hP⟩ := h
    exact ⟨P, rfl, hb, hP.trans hlen⟩
  | pushExchange v pos =>
    obtain ⟨P, rfl, hb, hP, hseq⟩ := h
    refine ⟨P, rfl, hb, hP.trans hlen, fun hPT => ?_⟩
    obtain rfl : P = claims.length := by omega
    exact hpush (hseq rfl) hPT.symm
  | pushData v pos p =>
    obtain ⟨rfl, hHp, hp, hseq, hv⟩ := h
    obtain ⟨hHp', hseq', -⟩ := hfill p rfl hHp hp hseq
    exact ⟨rfl, hHp', hp.trans_le hlen, hseq', by rw [hkeep p hp, hv]⟩
  | pushPublish v pos p =>
    obtain ⟨rfl, hHp, hp, hseq, hv, hd⟩ := h
    obtain ⟨hHp', hseq', hd'⟩ := hfill p rfl hHp hp hseq
    exact ⟨rfl, hHp', hp.trans_le hlen, hseq', by rw [hkeep p hp, hv], hd'.trans hd⟩
  | pullSequence pos =>
    obtain ⟨P, rfl, hb, hP⟩ := h
    exact ⟨P, rfl, hb, hP.trans hH⟩
  | pullExchange pos =>
    obtain ⟨P, rfl, hb, hP, hseq⟩ := h
    refine ⟨P, rfl, hb, hP.trans hH, fun hPH => ?_⟩
    obtain rfl : P = H := by omega
    exact hpull (hseq rfl) hPH.symm
  | pullData pos p =>
    obtain ⟨rfl, hp, hroom, hseq, hd⟩ := h
    obtain ⟨hroom', hseq', hd'⟩ := hempty p rfl hp hseq hroom
    exact ⟨rfl, hp.trans_le hH, hroom', hseq', by rw [hkeep p (by omega), hd', hd]⟩
  | pullRelease pos p d =>
    obtain ⟨rfl, hp, hroom, hseq, hd⟩ := h
    obtain ⟨hroom', hseq', -⟩ := hempty p rfl hp hseq hroom
    exact ⟨rfl, hp.trans_le hH, hroom', hseq', by rw [hkeep p (by omega), hd]⟩

variable {c : Config τ α}

theorem Inv.filling_spec (h : Inv N c) {t : τ} {p : Nat} (ht : (c.locals t).filling = some p) :
    c.history.heads ≤ p ∧ p < c.history.claims.length ∧ c.history.sequences (p % N) = p := by
  have hok := h.threads t
  cases hl : c.locals t <;> rw [hl] at hok ht <;> cases ht
  · exact ⟨hok.2.1, hok.2.2.1, hok.2.2.2.1⟩
  · exact ⟨hok.2.1, hok.2.2.1, hok.2.2.2.1⟩

theorem Inv.emptying_spec (h : Inv N c) {t : τ} {p : Nat} (ht : (c.locals t).emptying = some p) :
    p < c.history.heads ∧ c.history.claims.length ≤ p + N ∧
      c.history.sequences (p % N) = p + 1 := by
  have hok := h.threads t
  cases hl : c.locals t <;> rw [hl] at hok ht <;> cases ht
  · exact ⟨hok.2.1, hok.2.2.1, hok.2.2.2.1⟩
  · exact ⟨hok.2.1, hok.2.2.1, hok.2.2.2.1⟩

theorem Inv.free_of_sequence (h : Inv N c) (hN : Size N) {p : Nat}
    (hp : c.history.sequences (p % N) = p) : Free N c.history (p % N) p := by
  have hlt : p % N < N := Nat.mod_lt p (by have := hN.two; omega)
  rcases h.cells _ hlt with ⟨q, hq⟩ | ⟨q, hq⟩
  · obtain rfl : q = p := hq.sequence.symm.trans hp
    exact hq
  · obtain rfl : p = q + 1 := hp.symm.trans hq.sequence
    exact absurd hq.cell.symm (hN.succ_mod_ne q)

theorem Inv.full_of_sequence (h : Inv N c) (hN : Size N) {p : Nat}
    (hp : c.history.sequences (p % N) = p + 1) : Full N c.queue c.history (p % N) p := by
  have hlt : p % N < N := Nat.mod_lt p (by have := hN.two; omega)
  rcases h.cells _ hlt with ⟨q, hq⟩ | ⟨q, hq⟩
  · obtain rfl : q = p + 1 := hq.sequence.symm.trans hp
    exact absurd hq.cell (hN.succ_mod_ne p)
  · obtain rfl : q = p := by
      have := hq.sequence.symm.trans hp
      omega
    exact hq

/-! ## Accesses that only move their thread -/

variable [DecidableEq τ] {t : τ}

theorem update_threads {Q : τ → Local α → Prop} {l : Local α} (hl : Q t l)
    (hothers : ∀ t' ≠ t, Q t' (c.locals t')) (t' : τ) : Q t' (Function.update c.locals t l t') := by
  rcases eq_or_ne t' t with rfl | hne
  · rwa [Function.update_self]
  · rw [Function.update_of_ne hne]
    exact hothers t' hne

theorem comp_update_same {f : Local α → Option Nat} {l : Local α} (h : f l = f (c.locals t)) :
    f ∘ Function.update c.locals t l = f ∘ c.locals := by
  rw [Function.comp_update, h]
  exact Function.update_eq_self t (f ∘ c.locals)

theorem Inv.goto (h : Inv N c) {l : Local α} (hfill : l.filling = (c.locals t).filling)
    (hempty : l.emptying = (c.locals t).emptying)
    (hl : LocalOk N c.history.claims c.history.heads c.history.sequences
      (fun i => (c.queue.buffer i).data) (c.history.began t) l) : Inv N (c.goto t l) := by
  constructor
  · exact h.mask
  · exact h.tail
  · exact h.head
  · exact h.order
  · exact h.stored
  · exact h.words
  · exact h.cells
  · exact h.began
  · exact update_threads hl fun t' _ => h.threads t'
  · show Tickets.Ledger (Local.filling ∘ Function.update c.locals t l) _ _
    rw [comp_update_same hfill]
    exact h.pushes
  · show Tickets.Ledger (Local.emptying ∘ Function.update c.locals t l) _ _
    rw [comp_update_same hempty]
    exact h.pulls
  · exact h.values

theorem Inv.start (h : Inv N c) (hidle : c.locals t = .idle) {l : Local α}
    (hl : (∃ v, l = .pushState v) ∨ l = .pullState) : Inv N (c.start t l) := by
  have hgoto : Inv N (c.goto t l) := by
    rcases hl with ⟨v, rfl⟩ | rfl
    · exact h.goto (by rw [hidle]; rfl) (by rw [hidle]; rfl) trivial
    · exact h.goto (by rw [hidle]; rfl) (by rw [hidle]; rfl) trivial
  refine { hgoto with cells := ?_, began := ?_, threads := ?_ }
  · intro i hi
    rcases h.cells i hi with ⟨p, hp⟩ | ⟨p, hp⟩
    · exact .inl ⟨p, hp.cell, hp.sequence, hp.low, hp.high, hp.room, hp.pending⟩
    · exact .inr ⟨p, hp.cell, hp.sequence, hp.claimed, hp.room, hp.data⟩
  · intro t'
    show (Function.update c.history.began t _ t').1 ≤ _ ∧ (Function.update c.history.began t _ t').2 ≤ _
    rw [Function.update_apply]
    split
    · exact ⟨le_refl _, le_refl _⟩
    · exact h.began t'
  · refine update_threads ?_ fun t' hne => ?_
    · rcases hl with ⟨v, rfl⟩ | rfl <;> trivial
    · show LocalOk _ _ _ _ _ (Function.update c.history.began t _ t') _
      rw [Function.update_of_ne hne]
      exact h.threads t'

theorem Inv.loadTail (h : Inv N c) {v : α} (hfill : (c.locals t).filling = none)
    (hempty : (c.locals t).emptying = none) : Inv N (c.goto t (.pushSequence v c.queue.tail)) := by
  refine h.goto hfill.symm hempty.symm ?_
  exact ⟨_, h.tail, (h.began t).1, le_refl _⟩

theorem Inv.loadHead (h : Inv N c) (hfill : (c.locals t).filling = none)
    (hempty : (c.locals t).emptying = none) : Inv N (c.goto t (.pullSequence c.queue.head)) := by
  refine h.goto hfill.symm hempty.symm ?_
  exact ⟨_, h.head, (h.began t).2, le_refl _⟩

/-- The sequence number that a push reads agrees with its position only if the cell is free for
it. -/
theorem Inv.pushSequence (h : Inv N c) (hN : Size N) {v : α} {pos : Word}
    (hl : c.locals t = .pushSequence v pos) (hseq : (c.queue.cell pos).sequence = pos) :
    Inv N (c.goto t (.pushExchange v pos)) := by
  have hok := h.threads t
  rw [hl] at hok
  obtain ⟨P, rfl, hb, hP⟩ := hok
  refine h.goto (by rw [hl]; rfl) (by rw [hl]; rfl) ⟨P, rfl, hb, hP, fun hPT => ?_⟩
  have hlt : P % N < N := Nat.mod_lt P (by have := hN.two; omega)
  rw [h.cell_word hN, h.words _ hlt] at hseq
  have hle := hN.le
  have horder := h.order
  have hstored := h.stored
  -- A cell is at most one round away from the tail, far less than a turn of the counter.
  apply word_inj hseq
  · rcases h.cells _ hlt with ⟨q, hq⟩ | ⟨q, hq⟩
    · have := hq.sequence
      have := hq.high
      omega
    · have := hq.sequence
      have := hq.claimed
      omega
  · rcases h.cells _ hlt with ⟨q, hq⟩ | ⟨q, hq⟩
    · have := hq.sequence
      have := hq.room
      omega
    · have := hq.sequence
      have := hq.room
      omega

theorem Inv.pullSequence (h : Inv N c) (hN : Size N) {pos : Word}
    (hl : c.locals t = .pullSequence pos) (hseq : (c.queue.cell pos).sequence = pos + 1) :
    Inv N (c.goto t (.pullExchange pos)) := by
  have hok := h.threads t
  rw [hl] at hok
  obtain ⟨P, rfl, hb, hP⟩ := hok
  refine h.goto (by rw [hl]; rfl) (by rw [hl]; rfl) ⟨P, rfl, hb, hP, fun hPH => ?_⟩
  have hlt : P % N < N := Nat.mod_lt P (by have := hN.two; omega)
  rw [h.cell_word hN, h.words _ hlt, word_succ] at hseq
  have hle := hN.le
  have horder := h.order
  have hstored := h.stored
  apply word_inj hseq
  · rcases h.cells _ hlt with ⟨q, hq⟩ | ⟨q, hq⟩
    · have := hq.sequence
      have := hq.high
      omega
    · have := hq.sequence
      have := hq.claimed
      omega
  · rcases h.cells _ hlt with ⟨q, hq⟩ | ⟨q, hq⟩
    · have := hq.sequence
      have := hq.low
      omega
    · have := hq.sequence
      have := hq.room
      omega

/-! ## The six accesses with an effect -/

theorem Inv.claimTail (h : Inv N c) (hN : Size N) {v : α}
    (hfill : (c.locals t).filling = none) (hempty : (c.locals t).emptying = none)
    (hseq : c.history.sequences (c.history.claims.length % N) = c.history.claims.length) :
    Inv N (c.claimTail t v (word c.history.claims.length)) := by
  have hfree := h.free_of_sequence hN hseq
  have hroom := hfree.high
  have horder := h.order
  have htwo := hN.two
  -- No cell can be a full round behind: it would be the one that is free.
  have hround : ∀ p, p + N = c.history.claims.length → c.history.sequences (p % N) = p + N := by
    intro p hp
    rw [← hp, Nat.add_mod_right] at hseq
    exact hseq
  have hlen : (c.history.claims ++ [v]).length = c.history.claims.length + 1 := by simp
  have hcells : ∀ i < N, (∃ p, Free N (c.claimTail t v (word c.history.claims.length)).history i p) ∨
      ∃ p, Full N (c.claimTail t v (word c.history.claims.length)).queue
        (c.claimTail t v (word c.history.claims.length)).history i p := by
    intro i hi
    rcases h.cells i hi with ⟨p, hp⟩ | ⟨p, hp⟩
    · refine .inl ⟨p, hp.cell, hp.sequence, hp.low, hp.high, ?_, hp.pending⟩
      have := hround p
      have := hp.room
      have hs := hp.sequence
      rw [← hp.cell] at hs
      show (c.history.claims ++ [v]).length ≤ p + N
      omega
    · refine .inr ⟨p, hp.cell, hp.sequence, ?_, ?_, ?_⟩
      · show p < (c.history.claims ++ [v]).length
        have := hp.claimed
        omega
      · have := hround p
        have := hp.room
        have hs := hp.sequence
        rw [← hp.cell] at hs
        show (c.history.claims ++ [v]).length ≤ p + N
        omega
      · show (c.queue.buffer i).data = (c.history.claims ++ [v])[p]?
        rw [List.getElem?_append_left hp.claimed]
        exact hp.data
  constructor
  · exact h.mask
  · show word _ + 1 = word (c.history.claims ++ [v]).length
    rw [word_succ, hlen]
  · exact h.head
  · show c.history.heads ≤ (c.history.claims ++ [v]).length
    omega
  · show (c.history.claims ++ [v]).length ≤ c.history.heads + N
    omega
  · exact h.words
  · exact hcells
  · intro t'
    refine ⟨?_, (h.began t').2⟩
    have := (h.began t').1
    show (c.history.began t').1 ≤ (c.history.claims ++ [v]).length
    omega
  · refine update_threads ⟨rfl, ?_, ?_, hseq, ?_⟩ fun t' _ => ?_
    · exact horder
    · show _ < (c.history.claims ++ [v]).length
      omega
    · show (c.history.claims ++ [v])[c.history.claims.length]? = some v
      simp
    · refine (h.threads t').frame horder (List.prefix_append _ _) (le_refl _) ?_ ?_ ?_ ?_
      · intro _ hcl
        change (c.history.claims ++ [v]).length = _ at hcl
        omega
      · exact fun hs _ => hs
      · exact fun p _ hHp _ hs => ⟨hHp, hs, rfl⟩
      · intro p _ _ hs hr
        refine ⟨?_, hs, rfl⟩
        have := hround p
        show (c.history.claims ++ [v]).length ≤ p + N
        omega
  · show Tickets.Ledger (Local.filling ∘ Function.update c.locals t _) (c.history.claims ++ [v]).length _
    rw [Function.comp_update, hlen]
    exact h.pushes.take hfill
  · show Tickets.Ledger (Local.emptying ∘ Function.update c.locals t _) _ _
    rw [comp_update_same hempty.symm]
    exact h.pulls
  · intro x hx
    show x.2 = (c.history.claims ++ [v])[x.1]?
    have hlt : x.1 < c.history.heads := h.pulls.done_lt (List.mem_map_of_mem hx)
    rw [List.getElem?_append_left (by omega)]
    exact h.values x hx

theorem Inv.claimHead (h : Inv N c) (hN : Size N)
    (hfill : (c.locals t).filling = none) (hempty : (c.locals t).emptying = none)
    (hseq : c.history.sequences (c.history.heads % N) = c.history.heads + 1) :
    Inv N (c.claimHead t (word c.history.heads)) := by
  have hfull := h.full_of_sequence hN hseq
  have hclaimed := hfull.claimed
  have hstored := h.stored
  have hne : ∀ p, c.history.sequences (p % N) = p → p ≠ c.history.heads := by
    rintro p hp rfl
    omega
  constructor
  · exact h.mask
  · exact h.tail
  · show word _ + 1 = word (c.history.heads + 1)
    exact word_succ _
  · exact hclaimed
  · show c.history.claims.length ≤ c.history.heads + 1 + N
    omega
  · exact h.words
  · intro i hi
    rcases h.cells i hi with ⟨p, hp⟩ | ⟨p, hp⟩
    · refine .inl ⟨p, hp.cell, hp.sequence, ?_, ?_, hp.room, hp.pending⟩
      · have hs := hp.sequence
        rw [← hp.cell] at hs
        exact Nat.lt_of_le_of_ne hp.low (hne p hs).symm
      · show p < c.history.heads + 1 + N
        have := hp.high
        omega
    · exact .inr ⟨p, hp.cell, hp.sequence, hp.claimed, hp.room, hp.data⟩
  · intro t'
    exact ⟨(h.began t').1, Nat.le_succ_of_le (h.began t').2⟩
  · refine update_threads ⟨rfl, Nat.lt_succ_self _, hfull.room, hseq, hfull.data⟩ fun t' _ => ?_
    refine (h.threads t').frame h.order (List.prefix_refl _) (Nat.le_succ _) ?_ ?_ ?_ ?_
    · exact fun hs _ => hs
    · intro _ hH
      exact absurd hH (Nat.succ_ne_self _)
    · intro p _ hHp _ hs
      exact ⟨Nat.lt_of_le_of_ne hHp (hne p hs).symm, hs, rfl⟩
    · exact fun p _ _ hs hr => ⟨hr, hs, rfl⟩
  · show Tickets.Ledger (Local.filling ∘ Function.update c.locals t _) _ _
    rw [comp_update_same hfill.symm]
    exact h.pushes
  · show Tickets.Ledger (Local.emptying ∘ Function.update c.locals t _) (c.history.heads + 1) _
    rw [Function.comp_update]
    exact h.pulls.take hempty
  · exact h.values

/-! A write to the cell of the position that thread `t` has claimed. No other thread is at that
cell. -/

section Apart

variable {i s : Nat} {data' : Nat → Option α}

omit [DecidableEq τ] in
theorem Inv.others (h : Inv N c) (t' : τ) (hdata : ∀ j ≠ i, data' j = (c.queue.buffer j).data)
    (htail : c.history.claims.length % N = i →
      c.history.sequences i ≠ c.history.claims.length)
    (hhead : c.history.heads % N = i → c.history.sequences i ≠ c.history.heads + 1)
    (hfill : ∀ q, (c.locals t').filling = some q → q % N ≠ i)
    (hempty : ∀ q, (c.locals t').emptying = some q → q % N ≠ i) :
    LocalOk N c.history.claims c.history.heads (Function.update c.history.sequences i s) data'
      (c.history.began t') (c.locals t') := by
  refine (h.threads t').frame h.order (List.prefix_refl _) (le_refl _) ?_ ?_ ?_ ?_
  · intro hs _
    rw [Function.update_of_ne]
    · exact hs
    · rintro rfl
      exact htail rfl hs
  · intro hs _
    rw [Function.update_of_ne]
    · exact hs
    · rintro rfl
      exact hhead rfl hs
  · intro q hq hHq _ hs
    have hne := hfill q hq
    rw [Function.update_of_ne hne, hdata _ hne]
    exact ⟨hHq, hs, rfl⟩
  · intro q hq _ hs hr
    have hne := hempty q hq
    rw [Function.update_of_ne hne, hdata _ hne]
    exact ⟨hr, hs, rfl⟩

variable {p : Nat} {t' : τ}

omit [DecidableEq τ] in
theorem Inv.apart_filling (h : Inv N c) (hN : Size N) (ht : (c.locals t).filling = some p)
    (htt : t' ≠ t) (hdata : ∀ j ≠ p % N, data' j = (c.queue.buffer j).data) :
    LocalOk N c.history.claims c.history.heads (Function.update c.history.sequences (p % N) s) data'
      (c.history.began t') (c.locals t') := by
  obtain ⟨hHp, hpT, hseq⟩ := h.filling_spec ht
  apply h.others t' hdata
  · intro _ hs
    omega
  · intro hi hs
    obtain rfl : p = c.history.heads + 1 := hseq.symm.trans hs
    exact hN.succ_mod_ne _ hi.symm
  · intro q hq hi
    have hs := (h.filling_spec hq).2.2
    rw [hi, hseq] at hs
    subst hs
    exact htt (h.pushes.unique t' t _ hq ht)
  · intro q hq hi
    have hs := (h.emptying_spec hq).2.2
    rw [hi, hseq] at hs
    subst hs
    exact hN.succ_mod_ne q hi.symm

omit [DecidableEq τ] in
theorem Inv.apart_emptying (h : Inv N c) (hN : Size N) (ht : (c.locals t).emptying = some p)
    (htt : t' ≠ t) (hdata : ∀ j ≠ p % N, data' j = (c.queue.buffer j).data) :
    LocalOk N c.history.claims c.history.heads (Function.update c.history.sequences (p % N) s) data'
      (c.history.began t') (c.locals t') := by
  obtain ⟨hpH, hroom, hseq⟩ := h.emptying_spec ht
  apply h.others t' hdata
  · intro hi hs
    rw [hseq] at hs
    rw [← hs] at hi
    exact hN.succ_mod_ne p hi
  · intro _ hs
    omega
  · intro q hq hi
    have hs := (h.filling_spec hq).2.2
    rw [hi, hseq] at hs
    subst hs
    exact hN.succ_mod_ne p hi
  · intro q hq hi
    have hs := (h.emptying_spec hq).2.2
    rw [hi, hseq] at hs
    obtain rfl : p = q := by omega
    exact htt (h.pulls.unique t' t _ hq ht)

end Apart

theorem Inv.writeData (h : Inv N c) (hN : Size N) {v : α} {p : Nat}
    (hl : c.locals t = .pushData v (word p) p) : Inv N (c.writeData t v (word p) p) := by
  have hok := h.threads t
  rw [hl] at hok
  obtain ⟨-, hHp, hpT, hseq, hv⟩ := hok
  have hbuffer : (c.writeData t v (word p) p).queue.buffer =
      Function.update c.queue.buffer (p % N) { c.queue.buffer (p % N) with data := some v } := by
    unfold Config.writeData Queue.setData
    rw [h.index_word hN, h.cell_word hN]
  have hother : ∀ j ≠ p % N, (c.writeData t v (word p) p).queue.buffer j = c.queue.buffer j := by
    intro j hj
    rw [hbuffer, Function.update_of_ne hj]
  have hself : (c.writeData t v (word p) p).queue.buffer (p % N) =
      { c.queue.buffer (p % N) with data := some v } := by
    rw [hbuffer, Function.update_self]
  constructor
  · exact h.mask
  · exact h.tail
  · exact h.head
  · exact h.order
  · exact h.stored
  · intro i hi
    refine Eq.trans ?_ (h.words i hi)
    rw [hbuffer, Function.update_apply]
    split
    · rw [‹i = _›]
    · rfl
  · intro i hi
    rcases h.cells i hi with ⟨q, hq⟩ | ⟨q, hq⟩
    · exact .inl ⟨q, hq⟩
    · refine .inr ⟨q, { hq with data := ?_ }⟩
      rw [hother i, hq.data]
      · rfl
      · rintro rfl
        have hs := hq.sequence
        rw [hseq] at hs
        subst hs
        exact hN.succ_mod_ne q hq.cell.symm
  · exact h.began
  · refine update_threads ⟨rfl, hHp, hpT, hseq, hv, ?_⟩ fun t' htt => ?_
    · show ((c.writeData t v (word p) p).queue.buffer (p % N)).data = some v
      rw [hself]
    · have hap := h.apart_filling (s := c.history.sequences (p % N)) hN
        (show (c.locals t).filling = some p by rw [hl]; rfl) htt
        (fun j hj => congrArg QueueCell.data (hother j hj))
      rw [Function.update_eq_self] at hap
      exact hap
  · show Tickets.Ledger (Local.filling ∘ Function.update c.locals t _) _ _
    rw [comp_update_same (by rw [hl]; rfl)]
    exact h.pushes
  · show Tickets.Ledger (Local.emptying ∘ Function.update c.locals t _) _ _
    rw [comp_update_same (by rw [hl]; rfl)]
    exact h.pulls
  · exact h.values

omit [DecidableEq τ] in
theorem Inv.setSequence_buffer (h : Inv N c) (hN : Size N) (p : Nat) (s : Word) (j : Nat) :
    (c.queue.setSequence (word p) s).buffer j =
      if j = p % N then { c.queue.buffer (p % N) with sequence := s } else c.queue.buffer j := by
  unfold Queue.setSequence
  rw [h.index_word hN, h.cell_word hN]
  exact Function.update_apply ..

omit [DecidableEq τ] in
theorem Inv.setSequence_data (h : Inv N c) (hN : Size N) (p : Nat) (s : Word) (j : Nat) :
    ((c.queue.setSequence (word p) s).buffer j).data = (c.queue.buffer j).data := by
  rw [h.setSequence_buffer hN]
  split
  · rw [‹j = _›]
  · rfl

omit [DecidableEq τ] in
theorem Inv.setSequence_words (h : Inv N c) (hN : Size N) (p s : Nat) (j : Nat) (hj : j < N) :
    ((c.queue.setSequence (word p) (word s)).buffer j).sequence =
      word (Function.update c.history.sequences (p % N) s j) := by
  rw [h.setSequence_buffer hN, Function.update_apply]
  split
  · rfl
  · exact h.words j hj

theorem Inv.publish (h : Inv N c) (hN : Size N) {v : α} {p : Nat}
    (hl : c.locals t = .pushPublish v (word p) p) : Inv N (c.publish t (word p) p) := by
  have hok := h.threads t
  rw [hl] at hok
  obtain ⟨-, hHp, hpT, hseq, hv, hd⟩ := hok
  have hfree := h.free_of_sequence hN hseq
  have hfill : (c.locals t).filling = some p := by
    rw [hl]
    rfl
  have hsequences : (c.publish t (word p) p).history.sequences =
      Function.update c.history.sequences (p % N) (p + 1) := by
    unfold Config.publish
    rw [h.index_word hN]
  constructor
  · exact h.mask
  · exact h.tail
  · exact h.head
  · exact h.order
  · exact h.stored
  · intro i hi
    rw [hsequences, ← h.setSequence_words hN p (p + 1) i hi, ← word_succ]
    rfl
  · intro i hi
    rcases eq_or_ne i (p % N) with rfl | hne
    · refine .inr ⟨p, rfl, ?_, hpT, hfree.room, ?_⟩
      · rw [hsequences, Function.update_self]
      · show ((c.queue.setSequence (word p) (word p + 1)).buffer _).data = c.history.claims[p]?
        rw [h.setSequence_data hN, hv]
        exact hd
    · have hs : (c.publish t (word p) p).history.sequences i = c.history.sequences i := by
        rw [hsequences, Function.update_of_ne hne]
      rcases h.cells i hi with ⟨q, hq⟩ | ⟨q, hq⟩
      · refine .inl ⟨q, hq.cell, hs.trans hq.sequence, hq.low, hq.high, hq.room, ?_⟩
        show q ∉ c.history.pushed ++ [p]
        rw [List.mem_append, List.mem_singleton]
        rintro (hm | rfl)
        · exact hq.pending hm
        · exact hne hq.cell.symm
      · refine .inr ⟨q, hq.cell, hs.trans hq.sequence, hq.claimed, hq.room, ?_⟩
        exact (h.setSequence_data hN _ _ _).trans hq.data
  · exact h.began
  · refine update_threads trivial fun t' htt => ?_
    rw [hsequences]
    exact h.apart_filling hN hfill htt fun j _ => h.setSequence_data hN _ _ _
  · show Tickets.Ledger (Local.filling ∘ Function.update c.locals t _) _ _
    rw [Function.comp_update]
    exact h.pushes.handIn hfill
  · show Tickets.Ledger (Local.emptying ∘ Function.update c.locals t _) _ _
    rw [comp_update_same (by rw [hl]; rfl)]
    exact h.pulls
  · exact h.values

theorem Inv.readData (h : Inv N c) (hN : Size N) {p : Nat}
    (hl : c.locals t = .pullData (word p) p) : Inv N (c.readData t (word p) p) := by
  have hok := h.threads t
  rw [hl] at hok
  obtain ⟨-, hpH, hroom, hseq, hd⟩ := hok
  unfold Config.readData
  rw [h.cell_word hN]
  exact h.goto (by rw [hl]; rfl) (by rw [hl]; rfl) ⟨rfl, hpH, hroom, hseq, hd⟩

theorem Inv.release (h : Inv N c) (hN : Size N) {p : Nat} {d : Option α}
    (hl : c.locals t = .pullRelease (word p) p d) : Inv N (c.release t (word p) p d) := by
  have hok := h.threads t
  rw [hl] at hok
  obtain ⟨-, hpH, hroom, hseq, hd⟩ := hok
  have hempty : (c.locals t).emptying = some p := by
    rw [hl]
    rfl
  have htwo := hN.two
  have hle := hN.le
  have horder := h.order
  have hmask : c.queue.bufferMask.toNat + 1 = N := by
    rw [h.mask, BitVec.toNat_ofNat, Nat.mod_eq_of_lt (by omega)]
    omega
  have hword : word p + c.queue.bufferMask + 1 = word (p + N) := by
    rw [h.mask, ← BitVec.ofNat_add, word_succ]
    congr 1
    omega
  have hsequences : (c.release t (word p) p d).history.sequences =
      Function.update c.history.sequences (p % N) (p + N) := by
    unfold Config.release
    rw [h.index_word hN, hmask]
  constructor
  · exact h.mask
  · exact h.tail
  · exact h.head
  · exact h.order
  · exact h.stored
  · intro i hi
    rw [hsequences, ← h.setSequence_words hN p (p + N) i hi, ← hword]
    rfl
  · intro i hi
    rcases eq_or_ne i (p % N) with rfl | hne
    · refine .inl ⟨p + N, Nat.add_mod_right p N, ?_, ?_, ?_, ?_, ?_⟩
      · rw [hsequences, Function.update_self]
      · show c.history.heads ≤ p + N
        omega
      · show p + N < c.history.heads + N
        omega
      · show c.history.claims.length ≤ p + N + N
        omega
      · intro hm
        have := h.pushes.done_lt hm
        omega
    · have hs : (c.release t (word p) p d).history.sequences i = c.history.sequences i := by
        rw [hsequences, Function.update_of_ne hne]
      rcases h.cells i hi with ⟨q, hq⟩ | ⟨q, hq⟩
      · exact .inl ⟨q, hq.cell, hs.trans hq.sequence, hq.low, hq.high, hq.room, hq.pending⟩
      · refine .inr ⟨q, hq.cell, hs.trans hq.sequence, hq.claimed, hq.room, ?_⟩
        exact (h.setSequence_data hN _ _ _).trans hq.data
  · exact h.began
  · refine update_threads trivial fun t' htt => ?_
    rw [hsequences]
    exact h.apart_emptying hN hempty htt fun j _ => h.setSequence_data hN _ _ _
  · show Tickets.Ledger (Local.filling ∘ Function.update c.locals t _) _ _
    rw [comp_update_same (by rw [hl]; rfl)]
    exact h.pushes
  · show Tickets.Ledger (Local.emptying ∘ Function.update c.locals t _) _
      ((c.history.pulled ++ [(p, d)]).map Prod.fst)
    rw [Function.comp_update, List.map_append]
    exact h.pulls.handIn hempty
  · intro x hx
    rcases List.mem_append.mp hx with hx | hx
    · exact h.values x hx
    · rw [List.mem_singleton] at hx
      subst hx
      exact hd

end VillasNode.Mpmc
