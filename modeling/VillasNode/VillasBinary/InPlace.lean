import VillasNode.VillasBinary.Memory

/-!
# What is left of the buffer

`msg_ntoh` converts a message where it is, and nothing converts it back. A
message that is cut by its sample overlaps with the next one, so that a word can
be swapped many times. The buffer is as before when each word is.
-/

namespace VillasNode

open ByteOrder ByteMemory

/-! ## Words of four bytes -/

structure Quad where
  a : Byte
  b : Byte
  c : Byte
  d : Byte
deriving DecidableEq

namespace Quad

def bytes (w : Quad) : List Byte := [w.a, w.b, w.c, w.d]

/-- `ntohl` on a little endian host. -/
def swap (w : Quad) : Quad := ⟨w.d, w.c, w.b, w.a⟩

/-- `ntohs` of the length, behind the two bytes at the front of a message. -/
def half (w : Quad) : Quad := ⟨w.a, w.b, w.d, w.c⟩

/-- The length of a message with this word at its front, in the order of the network. -/
def values (w : Quad) : Nat := w.d.toNat + 256 * w.c.toNat

/-- `msg_verify` of a message with this word at its front. -/
def Verified (w : Quad) : Prop :=
  w.a.extractLsb' 4 4 = msgVersion ∧ w.a.extractLsb' 2 2 = msgTypeData ∧ w.a.extractLsb' 0 2 = 0

instance (w : Quad) : Decidable w.Verified := inferInstanceAs (Decidable (_ ∧ _))

@[simp]
theorem swap_swap (w : Quad) : w.swap.swap = w := rfl

theorem swap_of_half_swap {w : Quad} (h : w.swap.half = w) : w.swap = w := by
  obtain ⟨a, b, c, d⟩ := w
  simp only [swap, half, Quad.mk.injEq] at h ⊢
  obtain ⟨hd, hc, -, -⟩ := h
  exact ⟨hd, hc, hc.symm, hd.symm⟩

end Quad

def quads : List Byte → List Quad
  | a :: b :: c :: d :: bs => ⟨a, b, c, d⟩ :: quads bs
  | _ => []

def quadBytes (ws : List Quad) : List Byte := ws.flatMap Quad.bytes

theorem quadBytes_cons (w : Quad) (ws : List Quad) :
    quadBytes (w :: ws) = w.bytes ++ quadBytes ws := List.flatMap_cons

theorem quadBytes_length (ws : List Quad) : (quadBytes ws).length = 4 * ws.length := by
  induction ws with
  | nil => rfl
  | cons w ws ih =>
    rw [quadBytes_cons, List.length_append, ih, List.length_cons]
    change 4 + _ = _
    omega

theorem quadBytes_quads (bs : List Byte) (h : bs.length % 4 = 0) : quadBytes (quads bs) = bs := by
  induction bs using quads.induct with
  | case1 a b c d bs ih =>
    simp only [List.length_cons] at h
    rw [quads, quadBytes_cons, ih (by omega)]
    rfl
  | case2 bs hnot =>
    match bs, hnot with
    | [], _ => rfl
    | [_], _ => simp at h
    | [_, _], _ => simp at h
    | [_, _, _], _ => simp at h
    | a :: b :: c :: d :: bs, hnot => exact absurd rfl (hnot a b c d bs)

theorem quadBytes_inj {ws ws' : List Quad} (h : quadBytes ws = quadBytes ws') : ws = ws' := by
  have hquads (ws : List Quad) : quads (quadBytes ws) = ws := by
    induction ws with
    | nil => rfl
    | cons w ws ih =>
      rw [quadBytes_cons]
      exact congrArg (w :: ·) ih
  rw [← hquads ws, h, hquads ws']

theorem quadBytes_take (ws : List Quad) (n : Nat) :
    (quadBytes ws).take (4 * n) = quadBytes (ws.take n) := by
  induction ws generalizing n with
  | nil => simp [quadBytes]
  | cons w ws ih =>
    cases n with
    | zero => rfl
    | succ n =>
      rw [List.take_succ_cons, quadBytes_cons, quadBytes_cons, ← ih n, Nat.mul_succ, Nat.add_comm]
      change (w.bytes ++ quadBytes ws).take (w.bytes.length + 4 * n) = _
      exact List.take_length_add_append ..

theorem quadBytes_drop (ws : List Quad) (n : Nat) :
    (quadBytes ws).drop (4 * n) = quadBytes (ws.drop n) := by
  induction ws generalizing n with
  | nil => simp [quadBytes]
  | cons w ws ih =>
    cases n with
    | zero => rfl
    | succ n =>
      rw [List.drop_succ_cons, quadBytes_cons, ← ih n, Nat.mul_succ, Nat.add_comm]
      change (w.bytes ++ quadBytes ws).drop (w.bytes.length + 4 * n) = _
      exact List.drop_length_add_append ..

/-- The first `n` of a list are converted. -/
def convertFirst {α : Type*} (f : α → α) (n : Nat) (l : List α) : List α :=
  (l.take n).map f ++ l.drop n

/-! ## The scan of words -/

namespace VillasBinaryFormat

variable (fmt : VillasBinaryFormat)

/-- The number of values that a sample takes from a message with this word at its front. `none`
when the message is refused. -/
def advance (w : Quad) (smp : Receiver) : Option Nat :=
  if w.Verified ∧ ∀ t ∈ (fmt.lists fmt.signals).take (min w.values smp.capacity), t.isWord then
    some (min (min w.values smp.capacity) (fmt.lists fmt.signals).length)
  else none

/-- What the scan leaves of a buffer of words, on a little endian host. -/
def leftWords : List Quad → List Receiver → List Quad
  | ws, [] => ws
  | [], _ :: _ => []
  | w :: ws, smp :: smps =>
    if ws.length < 3 + w.values then w :: ws
    else
      let ws := convertFirst Quad.swap (3 + w.values) ws
      match fmt.advance w smp with
      | none => w.half :: ws
      | some n => w.half :: (ws.take (3 + n) ++ leftWords (ws.drop (3 + n)) smps)

end VillasBinaryFormat

/-! ## One message -/

theorem store_ntoh_load {w : Nat} (hw : 8 ∣ w) {bs : List Byte} (hbs : bs.length = w / 8) :
    store .little w (ntoh .little w (ByteOrder.load .little w bs)) = bs.reverse := by
  have hrev : bs.reverse.length = w / 8 := by rw [List.length_reverse, hbs]
  rw [ntoh, store_load hw hbs]
  exact store_load hw hrev

theorem storeAll_ntoh (ws : List Quad) (rest : List Byte) :
    storeAll .little 32 ((loadAll .little 32 ws.length (quadBytes ws ++ rest)).map (ntoh .little 32)) =
      quadBytes (ws.map Quad.swap) := by
  induction ws with
  | nil => rfl
  | cons w ws ih =>
    rw [quadBytes_cons, List.length_cons, List.append_assoc, loadAll, List.map_cons, storeAll_cons,
      List.map_cons, quadBytes_cons, ← ih]
    have hword : (w.bytes ++ (quadBytes ws ++ rest)).take (32 / 8) = w.bytes := rfl
    have hrest : (w.bytes ++ (quadBytes ws ++ rest)).drop (32 / 8) = quadBytes ws ++ rest := rfl
    rw [hword, hrest, store_ntoh_load (by decide) rfl]
    rfl

theorem ntoh_values (c d : Byte) :
    (ntoh .little 16 (ByteOrder.load .little 16 [c, d])).toNat = d.toNat + 256 * c.toNat := by
  have hc := c.isLt
  have hd := d.isLt
  rw [ntoh, store_load (by decide) rfl, ByteOrder.load, BitVec.toNat_ofNat]
  change (d.toNat + 256 * (c.toNat + 256 * 0)) % 2 ^ 16 = _
  omega

namespace VillasBinaryFormat

section
variable {fmt : VillasBinaryFormat}

/-- The conversion in place leaves a buffer as it was in the variant for the web, and on a host with
the byte order of the network. -/
theorem received_bytes_same (h : fmt.web = true ∨ fmt.host = .big) {rest : List Byte}
    (hwhole : msgLen (fmt.announced rest) ≤ rest.length) :
    (fmt.received (fmt.announced rest) rest).bytes fmt.host =
      rest.take (msgLen (fmt.announced rest)) := by
  rw [← bytes_load fmt.host _ hwhole]
  unfold received
  split
  · rfl
  · rename_i hweb
    obtain h | h := h
    · exact absurd h hweb
    have hsame {w : Nat} (hw : 8 ∣ w) : ntoh fmt.host w = id := by
      funext x
      rw [ntoh, h, load_store hw, id]
    unfold msgNtoh msgHdrNtoh convertData
    simp only [hsame (show 8 ∣ 16 by decide), hsame (show 8 ∣ 32 by decide), id, List.map_id,
      List.take_append_drop]

theorem left_same (h : fmt.web = true ∨ fmt.host = .big) (rest : List Byte)
    (smps : List Receiver) : fmt.left rest smps = rest := by
  induction smps generalizing rest with
  | nil => rfl
  | cons smp smps ih =>
    unfold left
    split
    · rfl
    rename_i hwhole
    dsimp only
    rw [received_bytes_same h (Nat.le_of_not_lt hwhole), List.take_append_drop, ih]
    split
    · rfl
    · exact List.take_append_drop ..

/-! ## A little endian host -/

theorem quadBytes_append (ws ws' : List Quad) :
    quadBytes (ws ++ ws') = quadBytes ws ++ quadBytes ws' := List.flatMap_append

theorem announced_words (hweb : fmt.web = false) (hhost : fmt.host = .little) (w : Quad)
    (ws : List Quad) : fmt.announced (quadBytes (w :: ws)) = w.values := by
  unfold announced
  rw [hweb, hhost, quadBytes_cons]
  exact ntoh_values w.c w.d

theorem received_words (hweb : fmt.web = false) (hhost : fmt.host = .little) {w : Quad}
    {ws : List Quad} (hwhole : ¬ ws.length < 3 + w.values) :
    (fmt.received w.values (quadBytes (w :: ws))).bytes fmt.host ++
        (quadBytes (w :: ws)).drop (msgLen w.values) =
      quadBytes (w.half :: convertFirst Quad.swap (3 + w.values) ws) := by
  obtain ⟨w₁, w₂, w₃, data, rfl⟩ : ∃ w₁ w₂ w₃ data, ws = w₁ :: w₂ :: w₃ :: data := by
    match ws, hwhole with
    | [], h | [_], h | [_, _], h =>
      simp only [List.length_cons, List.length_nil] at h
      omega
    | w₁ :: w₂ :: w₃ :: data, _ => exact ⟨w₁, w₂, w₃, data, rfl⟩
  have hle : w.values ≤ data.length := by
    simp only [List.length_cons] at hwhole
    omega
  have htake : (data.take w.values).length = w.values := List.length_take_of_le hle
  have hvalues := ntoh_values w.c w.d
  have hdata : storeAll .little 32 (convertData (ntoh .little 32) w.values
      (loadAll .little 32 w.values (quadBytes data))) = quadBytes ((data.take w.values).map Quad.swap) := by
    have hall := convertData_all (ntoh .little 32) (loadAll .little 32 w.values (quadBytes data))
    have hswap := storeAll_ntoh (data.take w.values) (quadBytes (data.drop w.values))
    rw [loadAll_length] at hall
    rw [← quadBytes_append, List.take_append_drop, htake] at hswap
    rw [hall, hswap]
  have hfront : quadBytes (w.half :: convertFirst Quad.swap (3 + w.values) (w₁ :: w₂ :: w₃ :: data)) =
      w.half.bytes ++ (w₁.swap.bytes ++ (w₂.swap.bytes ++ (w₃.swap.bytes ++
        (quadBytes ((data.take w.values).map Quad.swap) ++ quadBytes (data.drop w.values))))) := by
    rw [Nat.add_comm, convertFirst, ← quadBytes_append]
    rfl
  have hdrop : (quadBytes (w :: w₁ :: w₂ :: w₃ :: data)).drop (msgLen w.values) =
      quadBytes (data.drop w.values) := by
    have hlen : msgLen w.values = 4 * (w.values + 4) := by
      unfold msgLen
      omega
    rw [hlen, quadBytes_drop]
    rfl
  have hbytes : (fmt.received w.values (quadBytes (w :: w₁ :: w₂ :: w₃ :: data))).bytes fmt.host =
      w.half.bytes ++ (w₁.swap.bytes ++ (w₂.swap.bytes ++ (w₃.swap.bytes ++
        quadBytes ((data.take w.values).map Quad.swap)))) := by
    have hlength : store .little 16 (ntoh .little 16 (ByteOrder.load .little 16 [w.c, w.d])) =
        [w.d, w.c] := store_ntoh_load (by decide) rfl
    have hword (x : Quad) : store .little 32 (ntoh .little 32 (ByteOrder.load .little 32 x.bytes)) =
        x.swap.bytes := store_ntoh_load (by decide) rfl
    unfold received
    rw [hweb, hhost]
    change [w.a.extractLsb' 4 4 ++ w.a.extractLsb' 2 2 ++ w.a.extractLsb' 0 2, w.b] ++
      (store .little 16 (ntoh .little 16 (ByteOrder.load .little 16 [w.c, w.d])) ++
        (store .little 32 (ntoh .little 32 (ByteOrder.load .little 32 w₁.bytes)) ++
          (store .little 32 (ntoh .little 32 (ByteOrder.load .little 32 w₂.bytes)) ++
            (store .little 32 (ntoh .little 32 (ByteOrder.load .little 32 w₃.bytes)) ++
              storeAll .little 32 (convertData (ntoh .little 32)
                (ntoh .little 16 (ByteOrder.load .little 16 [w.c, w.d])).toNat
                (loadAll .little 32 w.values (quadBytes data))))))) = _
    rw [bit_fields_join, hlength, hword, hword, hword, hvalues]
    exact congrArg _ (congrArg _ (congrArg _ (congrArg _ (congrArg _ hdata))))
  rw [hbytes, hdrop, hfront]
  simp only [List.append_assoc]

theorem decode_advance (fmt : VillasBinaryFormat) {m : Msg} {w : Quad} (hversion : m.version = w.a.extractLsb' 4 4)
    (htype : m.type = w.a.extractLsb' 2 2) (hreserved : m.reserved1 = w.a.extractLsb' 0 2)
    (hlength : m.length.toNat = w.values) (hdata : m.data.length = w.values) (smp : Receiver) :
    match fmt.advance w smp with
    | none => (fmt.decode m smp).2 ≠ 0
    | some n => (fmt.decode m smp).2 = 0 ∧ (fmt.decode m smp).1.length = n := by
  unfold advance
  by_cases hverified : w.Verified
  · obtain ⟨hv, ht, hr⟩ := hverified
    have hvalid : m.Valid :=
      ⟨hversion.trans hv, htype.trans ht, hreserved.trans hr, hlength.trans hdata.symm⟩
    obtain ⟨hok, hlen⟩ := fmt.decode_spec hvalid smp
    unfold Known at hok
    rw [hdata] at hok hlen
    by_cases hknown : ∀ t ∈ (fmt.lists fmt.signals).take (min w.values smp.capacity), t.isWord
    · rw [if_pos ⟨⟨hv, ht, hr⟩, hknown⟩]
      exact ⟨hok.mpr hknown, hlen (hok.mpr hknown)⟩
    · rw [if_neg fun h => hknown h.2]
      exact mt hok.mp hknown
  · rw [if_neg fun h => hverified h.1]
    have hverify : msgVerify m ≠ 0 := by
      unfold msgVerify
      intro h
      apply hverified
      split_ifs at h with h₁ h₂ h₃
      exact ⟨hversion.symm.trans (not_not.mp h₁), htype.symm.trans (not_not.mp h₂),
        hreserved.symm.trans (not_not.mp h₃)⟩
    have hdecode : fmt.decode m smp = ((fmt.receive smp).payload, msgVerify m) := if_pos hverify
    dsimp only
    rw [hdecode]
    exact hverify

theorem left_words (hweb : fmt.web = false) (hhost : fmt.host = .little) (ws : List Quad)
    (smps : List Receiver) : fmt.left (quadBytes ws) smps = quadBytes (fmt.leftWords ws smps) := by
  induction smps generalizing ws with
  | nil =>
    rw [leftWords]
    rfl
  | cons smp smps ih =>
    cases ws with
    | nil =>
      have hshort : (quadBytes []).length < msgLen (fmt.announced (quadBytes [])) := by
        unfold msgLen
        change 0 < _
        omega
      rw [fmt.left_short hshort, leftWords]
    | cons w ws =>
      have hannounced := announced_words hweb hhost w ws
      have hshort : (quadBytes (w :: ws)).length < msgLen w.values ↔ ws.length < 3 + w.values := by
        rw [quadBytes_length, List.length_cons]
        unfold msgLen
        omega
      unfold left leftWords
      rw [hannounced]
      by_cases hwhole : ws.length < 3 + w.values
      · rw [if_pos (hshort.mpr hwhole), if_pos hwhole]
      rw [if_neg (mt hshort.mp hwhole), if_neg hwhole]
      dsimp only
      rw [received_words hweb hhost hwhole]
      have hlengths := fmt.received_length (quadBytes (w :: ws))
      rw [hannounced] at hlengths
      have hfields : ∀ m, m = fmt.received w.values (quadBytes (w :: ws)) →
          m.version = w.a.extractLsb' 4 4 ∧ m.type = w.a.extractLsb' 2 2 ∧
            m.reserved1 = w.a.extractLsb' 0 2 := by
        rintro m rfl
        unfold received
        rw [hweb]
        exact ⟨rfl, rfl, rfl⟩
      obtain ⟨hversion, htype, hreserved⟩ := hfields _ rfl
      have hadvance := decode_advance fmt hversion htype hreserved hlengths.1 hlengths.2 smp
      cases hn : fmt.advance w smp with
      | none =>
        rw [hn] at hadvance
        rw [if_pos hadvance]
      | some n =>
        rw [hn] at hadvance
        obtain ⟨hret, hlen⟩ := hadvance
        have hmsg : msgLen n = 4 * (3 + n + 1) := by
          unfold msgLen
          omega
        rw [if_neg (not_not_intro hret), hlen, hmsg, quadBytes_take, quadBytes_drop,
          List.take_succ_cons, List.drop_succ_cons, ih, ← quadBytes_append, List.cons_append]

/-! ## What is as before -/

/-- A word as the conversions so far have left it. -/
def current (p : Bool × Quad) : Quad := if p.1 then p.2.swap else p.2

def toggle (p : Bool × Quad) : Bool × Quad := (!p.1, p.2)

/-- Every word that is swapped now reads the same backwards. -/
def Settled (ps : List (Bool × Quad)) : Prop := ∀ p ∈ ps, p.1 = true → p.2.swap = p.2

/-- The scan leaves the buffer as it was. The messages are followed through the buffer as it was,
and each word is marked when it is swapped an odd number of times. -/
def Restored (fmt : VillasBinaryFormat) : List (Bool × Quad) → List Receiver → Prop
  | ps, [] => Settled ps
  | [], _ :: _ => True
  | p :: ps, smp :: smps =>
    (p.1 = true → p.2.swap = p.2) ∧
      if ps.length < 3 + p.2.values then Settled ps
      else
        p.2.half = p.2 ∧
          let ps := convertFirst toggle (3 + p.2.values) ps
          match fmt.advance p.2 smp with
          | none => Settled ps
          | some n => Settled (ps.take (3 + n)) ∧ Restored fmt (ps.drop (3 + n)) smps

theorem settled_iff (ps : List (Bool × Quad)) :
    ps.map current = ps.map Prod.snd ↔ Settled ps := by
  rw [List.map_inj_left]
  unfold Settled current
  constructor
  · intro h p hp hswapped
    have := h p hp
    rwa [if_pos hswapped] at this
  · intro h p hp
    split
    · rename_i hswapped
      exact h p hp hswapped
    · rfl

theorem convertFirst_current (n : Nat) (ps : List (Bool × Quad)) :
    convertFirst Quad.swap n (ps.map current) = (convertFirst toggle n ps).map current := by
  have hswap (p : Bool × Quad) : (current p).swap = current (toggle p) := by
    obtain ⟨swapped, w⟩ := p
    cases swapped <;> rfl
  unfold convertFirst
  rw [← List.map_take, ← List.map_drop, List.map_append, List.map_map, List.map_map]
  congr 2
  funext p
  exact hswap p

theorem convertFirst_snd (n : Nat) (ps : List (Bool × Quad)) :
    (convertFirst toggle n ps).map Prod.snd = ps.map Prod.snd := by
  unfold convertFirst
  rw [List.map_append, List.map_map, List.map_take, List.map_drop]
  change (ps.map Prod.snd).take n ++ _ = _
  rw [List.take_append_drop]

theorem leftWords_changed {p : Bool × Quad} (hswapped : p.1 = true) (hne : p.2.swap ≠ p.2)
    (ws : List Quad) (smps : List Receiver) :
    (fmt.leftWords (current p :: ws) smps).head? ≠ some p.2 := by
  have hcurrent : current p = p.2.swap := if_pos hswapped
  have hhalf : p.2.swap.half ≠ p.2 := fun h => hne (Quad.swap_of_half_swap h)
  rw [hcurrent]
  unfold leftWords
  cases smps with
  | nil => simpa using hne
  | cons smp smps =>
    dsimp only
    split
    · simpa using hne
    split
    · simpa using hhalf
    · simpa using hhalf

theorem leftWords_iff (ps : List (Bool × Quad)) (smps : List Receiver) :
    fmt.leftWords (ps.map current) smps = ps.map Prod.snd ↔ Restored fmt ps smps := by
  induction smps generalizing ps with
  | nil =>
    rw [leftWords, Restored, settled_iff]
  | cons smp smps ih =>
    cases ps with
    | nil => simp [leftWords, Restored]
    | cons p ps =>
      by_cases hfirst : p.1 = true → p.2.swap = p.2
      swap
      · obtain ⟨hswapped, hne⟩ := Classical.not_imp.mp hfirst
        refine iff_of_false (fun h => ?_) (fun h => hfirst h.1)
        apply leftWords_changed hswapped hne (ps.map current) (smp :: smps)
        rw [← List.map_cons, h]
        rfl
      have hcurrent : current p = p.2 := by
        unfold current
        split
        · rename_i hswapped
          exact hfirst hswapped
        · rfl
      rw [List.map_cons, List.map_cons, hcurrent, leftWords, Restored, List.length_map]
      by_cases hshort : ps.length < 3 + p.2.values
      · rw [if_pos hshort, if_pos hshort, List.cons.injEq, settled_iff]
        exact ⟨fun h => ⟨hfirst, h.2⟩, fun h => ⟨rfl, h.2⟩⟩
      rw [if_neg hshort, if_neg hshort, convertFirst_current, ← convertFirst_snd (3 + p.2.values) ps]
      generalize convertFirst toggle (3 + p.2.values) ps = qs
      cases fmt.advance p.2 smp with
      | none =>
        dsimp only
        rw [List.cons.injEq, settled_iff]
        exact ⟨fun h => ⟨hfirst, h⟩, fun h => h.2⟩
      | some n =>
        dsimp only
        have hsnd : qs.map Prod.snd = (qs.take (3 + n)).map Prod.snd ++
            (qs.drop (3 + n)).map Prod.snd := by
          rw [← List.map_append, List.take_append_drop]
        rw [List.cons.injEq, ← List.map_take, ← List.map_drop, hsnd, ← settled_iff, ← ih]
        constructor
        · rintro ⟨hhalf, happend⟩
          exact ⟨hfirst, hhalf, List.append_inj happend (by rw [List.length_map, List.length_map])⟩
        · rintro ⟨-, hhalf, htake, hdrop⟩
          exact ⟨hhalf, by rw [htake, hdrop]⟩

end

/-! ## The whole buffer -/

/-- The buffer is as before, and another scan finds what it would have found. -/
def Unconsumed (fmt : VillasBinaryFormat) (buf : List Byte) (smps : List Receiver) : Prop :=
  ∃ out, fmt.sscanAt buf smps = some out ∧ out.mem.bytes = buf ∧
    ∀ smps', fmt.sscan out.mem.bytes smps' = fmt.sscan buf smps'

theorem sscanAt_left (fmt : VillasBinaryFormat) {buf : List Byte} (h : buf.length % 4 = 0)
    (smps : List Receiver) :
    ∃ out, fmt.sscanAt buf smps = some out ∧ out.mem.bytes = fmt.left buf smps := by
  have hstart : (⟨buf, []⟩ : Memory).bytes = [] ++ buf := rfl
  obtain ⟨out, hout, -, hbytes⟩ := fmt.sscanLoopAt_scans smps 0 hstart
    (fun a ha => (List.not_mem_nil ha).elim)
  refine ⟨out, ?_, hbytes⟩
  unfold sscanAt
  rw [if_neg (not_not_intro h)]
  exact hout

theorem unconsumed_iff_left {fmt : VillasBinaryFormat} {buf : List Byte} (h : buf.length % 4 = 0)
    (smps : List Receiver) : fmt.Unconsumed buf smps ↔ fmt.left buf smps = buf := by
  obtain ⟨out, hout, hbytes⟩ := fmt.sscanAt_left h smps
  constructor
  · rintro ⟨out', hout', hsame, -⟩
    cases hout.symm.trans hout'
    exact hbytes.symm.trans hsame
  · intro hleft
    have hsame : out.mem.bytes = buf := hbytes.trans hleft
    refine ⟨out, hout, hsame, fun smps' => ?_⟩
    rw [hsame]

/-- For every buffer and any samples: the scan leaves the buffer as it was if and only if nothing is
converted, or the host has the byte order of the network, or each word that is swapped an odd number
of times reads the same backwards. -/
theorem unconsumed_iff (fmt : VillasBinaryFormat) (buf : List Byte) (smps : List Receiver) :
    fmt.Unconsumed buf smps ↔
      fmt.web = true ∨ fmt.host = .big ∨ buf.length % 4 ≠ 0 ∨
        Restored fmt ((quads buf).map fun w => (false, w)) smps := by
  by_cases hlen : buf.length % 4 = 0
  swap
  · refine iff_of_true ?_ (.inr (.inr (.inl hlen)))
    refine ⟨⟨⟨buf, []⟩, smps, [], .error (-1)⟩, if_pos hlen, rfl, fun _ => rfl⟩
  rw [unconsumed_iff_left hlen]
  cases hweb : fmt.web with
  | true => exact iff_of_true (left_same (.inl hweb) buf smps) (.inl rfl)
  | false =>
    cases hhost : fmt.host with
    | big => exact iff_of_true (left_same (.inr hhost) buf smps) (.inr (.inl rfl))
    | little =>
      have hwords : ((quads buf).map fun w => (false, w)).map current = quads buf := by
        rw [List.map_map]
        exact List.map_id' _
      have hsnd : ((quads buf).map fun w => (false, w)).map Prod.snd = quads buf := by
        rw [List.map_map]
        exact List.map_id' _
      rw [← leftWords_iff, hwords, hsnd]
      have hleft := left_words hweb hhost (quads buf) smps
      rw [quadBytes_quads buf hlen] at hleft
      rw [hleft]
      constructor
      · intro h
        apply Or.inr
        apply Or.inr
        apply Or.inr
        apply quadBytes_inj
        rw [h, quadBytes_quads buf hlen]
      · rintro (h | h | h | h)
        · cases h
        · cases h
        · exact absurd hlen h
        · rw [h, quadBytes_quads buf hlen]

end VillasBinaryFormat

/-! ## A message that is read twice -/

/-- A message with the sequence number 1 and the value 7, as it is sent. -/
def exampleSent : List Byte := exampleFormat.frames [exampleMsg 1 [7]]

/-- The first scan reads the message, and the second one the length 256. -/
theorem scanned_twice :
    (exampleFormat.sscan exampleSent [exampleReceiver]).result = .ok (1, 20) ∧
      (exampleFormat.sscan (exampleFormat.left exampleSent [exampleReceiver])
        [exampleReceiver]).result = .error (-3) ∧
      ¬ exampleFormat.Unconsumed exampleSent [exampleReceiver] := by
  refine ⟨by decide, by decide, fun h => ?_⟩
  have hlen : exampleSent.length % 4 = 0 := by decide
  exact absurd ((VillasBinaryFormat.unconsumed_iff_left hlen _).mp h) (by decide)

end VillasNode
