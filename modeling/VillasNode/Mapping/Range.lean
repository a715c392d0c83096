import Mathlib.Data.List.Range
import VillasNode.Mapping.Slots

/-!
# The range of a mapping entry

`mapping_update` store by store. The index of a slot is `unsigned` and can wrap
around, and so can the difference of the length of a sample and the offset of
an entry into it.
-/

namespace VillasNode.MappingRange

/-- The stores into `remapped->data`, as slot and value, in order. -/
def stores (stats : Nat → Nat → Value) (me : MappingEntry) (original : Payload) :
    List (Nat × Value) :=
  match me.type with
  | .stats metric type => [(me.offset, stats metric type)]
  | .timestamp type =>
    let ts := match type with
      | .received => original.received
      | .origin => original.origin
    [(u32 (me.offset + 0), ts.sec), (u32 (me.offset + 1), ts.nsec)]
  | .header .length => [(me.offset, BitVec.ofNat 64 original.length)]
  | .header .sequence => [(me.offset, original.sequence)]
  | .data offset =>
    (List.range (min original.length (u32 (offset + me.length)) - offset)).map fun k =>
      (u32 (me.offset + k), original.data (offset + k))
  | .unknown => []

/-- `len` behind the `switch`. -/
def lenLeft (me : MappingEntry) (original : Payload) : Nat :=
  match me.type with
  | .data offset => min me.length (u32Sub original.length offset)
  | _ => me.length

def applyStores (remapped : Payload) (l : List (Nat × Value)) : Payload :=
  l.foldl (fun r s => r.setData s.1 s.2) remapped

structure Updated where
  ret : Int
  stores : List (Nat × Value)
  remapped : Payload

/-- `mapping_update` -/
def mappingUpdate (stats : Nat → Nat → Value) (me : MappingEntry) (capacity : Nat)
    (remapped original : Payload) : Updated :=
  if capacity < u32 (me.offset + me.length) then ⟨-1, [], remapped⟩
  else if me.type = .unknown then ⟨-1, [], remapped⟩
  else
    let written := applyStores remapped (stores stats me original)
    let reach := u32 (me.offset + lenLeft me original)
    ⟨0, stores stats me original,
      if written.length < reach then { written with length := reach } else written⟩

/-! ## What it may change -/

/-- The stores are in the range of the entry and in the sample. A data entry has copied all values
that the original has for it. The length is raised no further than behind a slot that was written,
and not above the capacity. -/
structure InRange (me : MappingEntry) (capacity : Nat) (remapped original : Payload) (u : Updated) :
    Prop where
  slots : ∀ s ∈ u.stores, me.slots s.1 ∧ s.1 < capacity
  others : ∀ slot, (∀ s ∈ u.stores, s.1 ≠ slot) → u.remapped.data slot = remapped.data slot
  copied : ∀ offset, me.type = .data offset → ∀ k < me.length, offset + k < original.length →
    u.remapped.data (me.offset + k) = original.data (offset + k)
  length : u.remapped.length = remapped.length ∨ remapped.length < u.remapped.length ∧
    (∃ s ∈ u.stores, u.remapped.length ≤ s.1 + 1) ∧ u.remapped.length ≤ capacity
  frame : { u.remapped with data := remapped.data, length := remapped.length } = remapped

def WritesRange (me : MappingEntry) (capacity : Nat) (remapped original : Payload) (u : Updated) :
    Prop :=
  (u.ret ≠ 0 ∧ u.stores = [] ∧ u.remapped = remapped) ∨
    (u.ret = 0 ∧ InRange me capacity remapped original u)

/-- The values are of the types of the source: `unsigned`, and `int` for what is not negative there.
The length of the entry is the one of its kind. -/
structure WellFormed (me : MappingEntry) (capacity : Nat) (remapped original : Payload) : Prop where
  offset : me.offset < 2 ^ 32
  length : me.length < 2 ^ 31
  dataOffset : ∀ offset, me.type = .data offset → offset < 2 ^ 31
  capacity : capacity < 2 ^ 32
  remapped : remapped.length < 2 ^ 32
  original : original.length < 2 ^ 32
  kind : match me.type with
    | .stats .. | .header _ => me.length = 1
    | .timestamp _ => me.length = 2
    | .data _ | .unknown => True

/-! ## The stores -/

/-- How many slots the entry has values for. -/
def count (me : MappingEntry) (original : Payload) : Nat :=
  match me.type with
  | .data offset => min original.length (offset + me.length) - offset
  | .unknown => 0
  | _ => me.length

/-- The original ends in front of the values that the entry maps. -/
def EndsBefore (me : MappingEntry) (original : Payload) : Prop :=
  ∃ offset, me.type = .data offset ∧ original.length < offset

section
variable {stats : Nat → Nat → Value} {me : MappingEntry} {capacity : Nat}
  {remapped original : Payload}

theorem WellFormed.stores_slots (hw : WellFormed me capacity remapped original)
    (stats : Nat → Nat → Value) :
    (stores stats me original).map Prod.fst =
      (List.range (count me original)).map fun k => u32 (me.offset + k) := by
  have hkind := hw.kind
  have hzero : u32 me.offset = me.offset := u32_of_lt hw.offset
  unfold stores count
  rcases ht : me.type with _ | offset | ⟨metric, type⟩ | (_ | _) | type <;> rw [ht] at hkind <;>
    dsimp only at hkind ⊢
  · rfl
  · have hsum : u32 (offset + me.length) = offset + me.length := by
      apply u32_of_lt
      have := hw.length
      have := hw.dataOffset offset ht
      omega
    rw [hsum, List.map_map]
    rfl
  · simp [hkind, hzero]
  · simp [hkind, hzero]
  · simp [hkind, hzero]
  · simp [hkind, List.range_succ]

theorem WellFormed.stores_length (hw : WellFormed me capacity remapped original)
    (stats : Nat → Nat → Value) : (stores stats me original).length = count me original := by
  have hlen := congrArg List.length (hw.stores_slots stats)
  simpa using hlen

theorem applyStores_frame (remapped : Payload) (l : List (Nat × Value)) :
    { applyStores remapped l with data := remapped.data } = remapped := by
  unfold applyStores
  induction l generalizing remapped with
  | nil => rfl
  | cons s l ih =>
    rw [List.foldl_cons]
    have hrest := ih (remapped.setData s.1 s.2)
    exact congrArg (fun r : Payload => { r with data := remapped.data }) hrest

theorem applyStores_length (remapped : Payload) (l : List (Nat × Value)) :
    (applyStores remapped l).length = remapped.length := by
  have hlength := congrArg Payload.length (applyStores_frame remapped l)
  exact hlength

theorem applyStores_others (remapped : Payload) {l : List (Nat × Value)} {slot : Nat}
    (hout : ∀ s ∈ l, s.1 ≠ slot) : (applyStores remapped l).data slot = remapped.data slot := by
  unfold applyStores
  induction l generalizing remapped with
  | nil => rfl
  | cons s l ih =>
    obtain ⟨hne, hout⟩ := List.forall_mem_cons.mp hout
    rw [List.foldl_cons, ih _ hout, setData_data, if_neg (Ne.symm hne)]

theorem applyStores_copyData (remapped original : Payload) (i j n : Nat) :
    applyStores remapped ((List.range n).map fun k => (i + k, original.data (j + k))) =
      copyData remapped original i j n := by
  unfold applyStores
  induction n generalizing remapped i j with
  | zero => rfl
  | succ n ih =>
    unfold copyData
    rw [← ih, List.range_succ_eq_map, List.map_cons, List.foldl_cons, List.map_map]
    congr 1
    apply List.map_congr_left
    intro k _
    simp only [Function.comp_apply, Nat.succ_eq_add_one, Prod.mk.injEq]
    exact ⟨by omega, by congr 1; omega⟩

/-! ## The length -/

theorem lenLeft_ends (hw : WellFormed me capacity remapped original)
    (hends : EndsBefore me original) :
    count me original = 0 ∧ lenLeft me original = me.length := by
  obtain ⟨offset, ht, hlt⟩ := hends
  have hoffset := hw.dataOffset offset ht
  have hlength := hw.length
  unfold count lenLeft
  rw [ht]
  dsimp only
  unfold u32Sub u32
  omega

theorem lenLeft_count (hw : WellFormed me capacity remapped original) (htype : me.type ≠ .unknown)
    (hends : ¬ EndsBefore me original) :
    lenLeft me original = count me original ∧ count me original ≤ me.length := by
  unfold count lenLeft
  rcases ht : me.type with _ | offset | _ | _ | _ <;> dsimp only
  · exact absurd ht htype
  · have hle : offset ≤ original.length := by
      by_contra hlt
      exact hends ⟨offset, ht, by omega⟩
    rw [u32Sub_of_le hw.original hle]
    omega
  · exact ⟨rfl, le_refl _⟩
  · exact ⟨rfl, le_refl _⟩
  · exact ⟨rfl, le_refl _⟩

theorem mappingUpdate_accepted (stats : Nat → Nat → Value) (remapped original : Payload)
    (hcap : u32 (me.offset + me.length) ≤ capacity) (htype : me.type ≠ .unknown) :
    let u := mappingUpdate stats me capacity remapped original
    u.ret = 0 ∧ u.stores = stores stats me original ∧
      u.remapped.data = (applyStores remapped (stores stats me original)).data ∧
      u.remapped.length = max remapped.length (u32 (me.offset + lenLeft me original)) ∧
      { u.remapped with data := remapped.data, length := remapped.length } = remapped := by
  have hlen := applyStores_length remapped (stores stats me original)
  have hframe := applyStores_frame remapped (stores stats me original)
  have hframe' := congrArg (fun r : Payload => { r with length := remapped.length }) hframe
  unfold mappingUpdate
  rw [if_neg (Nat.not_lt.mpr hcap), if_neg htype]
  dsimp only
  split
  · refine ⟨rfl, rfl, rfl, ?_, hframe'⟩
    dsimp only
    omega
  · refine ⟨rfl, rfl, rfl, ?_, hframe'⟩
    omega

/-! ## When it keeps to its range -/

/-- The entry is rejected. Or it has values, and the slots for them are in the sample, which fails only
where their numbers wrap around. Or it has none, and the sample is as long already as it makes it. -/
def KeepsRange (me : MappingEntry) (capacity : Nat) (remapped original : Payload) : Prop :=
  ¬ me.applies capacity ∨
    (0 < count me original ∧ me.offset + count me original ≤ capacity) ∨
    (count me original = 0 ∧ ¬ EndsBefore me original ∧ me.offset ≤ remapped.length) ∨
    (EndsBefore me original ∧ u32 (me.offset + me.length) ≤ remapped.length)

theorem WellFormed.fits (hw : WellFormed me capacity remapped original)
    (stats : Nat → Nat → Value)
    (hslots : ∀ s ∈ stores stats me original, s.1 < capacity) (hpos : 0 < count me original) :
    me.offset + count me original ≤ capacity := by
  by_contra hbig
  have hcapacity := hw.capacity
  have hoffset := hw.offset
  -- The first slot that is not in the sample has a number that does not wrap around.
  have hk : max capacity me.offset - me.offset < count me original := by omega
  have hslot : me.offset + (max capacity me.offset - me.offset) < 2 ^ 32 := by omega
  have hmem : u32 (me.offset + (max capacity me.offset - me.offset)) ∈
      (stores stats me original).map Prod.fst := by
    rw [hw.stores_slots stats]
    exact List.mem_map.mpr ⟨_, List.mem_range.mpr hk, rfl⟩
  obtain ⟨s, hs, hfst⟩ := List.mem_map.mp hmem
  have hlt := hslots s hs
  rw [hfst, u32_of_lt hslot] at hlt
  omega

theorem WellFormed.store_slot (hw : WellFormed me capacity remapped original)
    (hfits : me.offset + count me original ≤ capacity) {s : Nat × Value}
    (hs : s ∈ stores stats me original) :
    me.offset ≤ s.1 ∧ s.1 < me.offset + count me original := by
  have hmem : s.1 ∈ (stores stats me original).map Prod.fst := List.mem_map_of_mem hs
  rw [hw.stores_slots stats] at hmem
  obtain ⟨k, hk, hslot⟩ := List.mem_map.mp hmem
  rw [List.mem_range] at hk
  have hcapacity := hw.capacity
  rw [u32_of_lt (by omega)] at hslot
  omega

theorem WellFormed.last_store (hw : WellFormed me capacity remapped original)
    (stats : Nat → Nat → Value) (hpos : 0 < count me original)
    (hfits : me.offset + count me original ≤ capacity) :
    ∃ s ∈ stores stats me original, s.1 + 1 = me.offset + count me original := by
  have hcapacity := hw.capacity
  have hmem : u32 (me.offset + (count me original - 1)) ∈ (stores stats me original).map Prod.fst := by
    rw [hw.stores_slots stats]
    exact List.mem_map.mpr ⟨_, List.mem_range.mpr (Nat.sub_one_lt_of_lt hpos), rfl⟩
  obtain ⟨s, hs, hfst⟩ := List.mem_map.mp hmem
  refine ⟨s, hs, ?_⟩
  rw [hfst, u32_of_lt (by omega)]
  omega

theorem WellFormed.stores_data (hw : WellFormed me capacity remapped original) {offset : Nat}
    (ht : me.type = .data offset) (hfits : me.offset + count me original ≤ capacity) {k : Nat}
    (hk : k < me.length) (hsupplied : offset + k < original.length) :
    (applyStores remapped (stores stats me original)).data (me.offset + k) =
      original.data (offset + k) := by
  have hcapacity := hw.capacity
  have hsum : u32 (offset + me.length) = offset + me.length := by
    apply u32_of_lt
    have := hw.length
    have := hw.dataOffset offset ht
    omega
  unfold count at hfits
  rw [ht] at hfits
  dsimp only at hfits
  have hstores : stores stats me original =
      (List.range (min original.length (offset + me.length) - offset)).map fun k =>
        (me.offset + k, original.data (offset + k)) := by
    unfold stores
    rw [ht]
    dsimp only
    rw [hsum]
    apply List.map_congr_left
    intro i hi
    rw [List.mem_range] at hi
    rw [u32_of_lt (by omega)]
  rw [hstores, applyStores_copyData, copyData_data, if_pos (by omega), Nat.add_sub_cancel_left]

theorem WellFormed.inRange_of_none (hw : WellFormed me capacity remapped original)
    (hcap : u32 (me.offset + me.length) ≤ capacity) (htype : me.type ≠ .unknown)
    (hzero : count me original = 0) (hlength : u32 (me.offset + lenLeft me original) ≤ remapped.length) :
    InRange me capacity remapped original (mappingUpdate stats me capacity remapped original) := by
  obtain ⟨-, hstores, hdata, hmax, hframe⟩ :=
    mappingUpdate_accepted stats remapped original hcap htype
  have hnil : stores stats me original = [] :=
    List.length_eq_zero_iff.mp ((hw.stores_length stats).trans hzero)
  rw [hnil] at hstores hdata
  refine ⟨?_, ?_, ?_, ?_, hframe⟩
  · rw [hstores]
    exact nofun
  · intro slot _
    rw [hdata]
    rfl
  · intro offset ht k hk hsupplied
    unfold count at hzero
    rw [ht] at hzero
    dsimp only at hzero
    omega
  · left
    rw [hmax]
    omega

theorem WellFormed.inRange_of_fits (hw : WellFormed me capacity remapped original)
    (hcap : u32 (me.offset + me.length) ≤ capacity) (htype : me.type ≠ .unknown)
    (hpos : 0 < count me original) (hfits : me.offset + count me original ≤ capacity) :
    InRange me capacity remapped original (mappingUpdate stats me capacity remapped original) := by
  obtain ⟨-, hstores, hdata, hmax, hframe⟩ :=
    mappingUpdate_accepted stats remapped original hcap htype
  obtain ⟨hleft, hle⟩ := lenLeft_count hw htype fun hends => by
    have := (lenLeft_ends hw hends).1
    omega
  have hcapacity := hw.capacity
  refine ⟨?_, ?_, ?_, ?_, hframe⟩
  · rw [hstores]
    intro s hs
    obtain ⟨hlo, hhi⟩ := hw.store_slot hfits hs
    unfold MappingEntry.slots
    omega
  · intro slot hout
    rw [hstores] at hout
    rw [hdata]
    exact applyStores_others remapped hout
  · intro offset ht k hk hsupplied
    rw [hdata]
    exact hw.stores_data ht hfits hk hsupplied
  · obtain ⟨s, hs, hslot⟩ := hw.last_store stats hpos hfits
    rw [hmax, hstores, hleft, u32_of_lt (by omega)]
    rcases Nat.le_total (me.offset + count me original) remapped.length with hge | hlt
    · exact .inl (Nat.max_eq_left hge)
    · rw [Nat.max_eq_right hlt]
      rcases Nat.eq_or_lt_of_le hlt with heq | hlt
      · exact .inl heq.symm
      · exact .inr ⟨hlt, ⟨s, hs, by omega⟩, hfits⟩

/-- For every entry, every original and every remapped sample: `mapping_update` keeps to the range
of the entry if and only if the entry is rejected, or it has values and no slot wraps around, or it has
none and the length is not raised. -/
theorem writes_range_iff (hw : WellFormed me capacity remapped original) :
    WritesRange me capacity remapped original (mappingUpdate stats me capacity remapped original) ↔
      KeepsRange me capacity remapped original := by
  by_cases happlies : me.applies capacity
  swap
  · refine iff_of_true (.inl ?_) (.inl happlies)
    unfold MappingEntry.applies at happlies
    unfold mappingUpdate
    split
    · exact ⟨by simp, rfl, rfl⟩
    split
    · exact ⟨by simp, rfl, rfl⟩
    · rename_i hcap htype
      exact absurd ⟨htype, Nat.not_lt.mp hcap⟩ happlies
  obtain ⟨htype, hcap⟩ := happlies
  constructor
  · rintro (⟨hne, -⟩ | ⟨-, hin⟩)
    · exact absurd (mappingUpdate_accepted stats remapped original hcap htype).1 hne
    obtain ⟨-, hstores, -, hmax, -⟩ := mappingUpdate_accepted stats remapped original hcap htype
    by_cases hzero : count me original = 0
    · have hnil : stores stats me original = [] :=
        List.length_eq_zero_iff.mp ((hw.stores_length stats).trans hzero)
      have hlength := hin.length
      rw [hmax, hstores, hnil] at hlength
      have hkept : u32 (me.offset + lenLeft me original) ≤ remapped.length := by
        rcases hlength with hsame | ⟨-, ⟨s, hs, -⟩, -⟩
        · omega
        · exact absurd hs List.not_mem_nil
      by_cases hends : EndsBefore me original
      · rw [(lenLeft_ends hw hends).2] at hkept
        exact .inr (.inr (.inr ⟨hends, hkept⟩))
      · rw [(lenLeft_count hw htype hends).1, hzero, Nat.add_zero, u32_of_lt hw.offset] at hkept
        exact .inr (.inr (.inl ⟨hzero, hends, hkept⟩))
    · have hpos : 0 < count me original := Nat.pos_of_ne_zero hzero
      refine .inr (.inl ⟨hpos, hw.fits stats (fun s hs => ?_) hpos⟩)
      rw [← hstores] at hs
      exact (hin.slots s hs).2
  · have hret := (mappingUpdate_accepted stats remapped original hcap htype).1
    rintro (hnot | ⟨hpos, hfits⟩ | ⟨hzero, hends, hoffset⟩ | ⟨hends, hlen⟩)
    · exact absurd ⟨htype, hcap⟩ hnot
    · exact .inr ⟨hret, hw.inRange_of_fits hcap htype hpos hfits⟩
    · refine .inr ⟨hret, hw.inRange_of_none hcap htype hzero ?_⟩
      rw [(lenLeft_count hw htype hends).1, hzero, Nat.add_zero, u32_of_lt hw.offset]
      exact hoffset
    · obtain ⟨hzero, hleft⟩ := lenLeft_ends hw hends
      refine .inr ⟨hret, hw.inRange_of_none hcap htype hzero ?_⟩
      rw [hleft]
      exact hlen

end

/-! ## An original that ends in front of the entry -/

def noStats : Nat → Nat → Value := fun _ _ => 0

/-- A sample with the values 7, 8, 9 and so on. -/
def counting (length : Nat) : Payload :=
  { sequence := 0, length, flags := 0, signals := 0, origin := ⟨0, 0⟩, received := ⟨0, 0⟩
    data := fun k => BitVec.ofNat 64 (k + 7) }

/-- `data[offset-(offset+length-1)]` of a node, in front of all others. -/
def dataEntry (offset length : Nat) : MappingEntry :=
  { node := 0, type := .data offset, length, offset := 0 }

theorem dataEntry_wellFormed {offset n : Nat} (hoffset : offset < 2 ^ 31) (hn : n < 2 ^ 32) :
    WellFormed (dataEntry offset 2) 4 (counting 0) (counting n) :=
  { offset := Nat.two_pow_pos 32, length := by simp [dataEntry], capacity := by decide
    remapped := Nat.two_pow_pos 32, original := hn, kind := trivial
    dataOffset := fun _ ht => by
      cases ht
      exact hoffset }

theorem writes_range_two :
    WritesRange (dataEntry 0 2) 4 (counting 0) (counting 2)
      (mappingUpdate noStats (dataEntry 0 2) 4 (counting 0) (counting 2)) :=
  (writes_range_iff (dataEntry_wellFormed (by decide) (by decide))).mpr
    (.inr (.inl ⟨by decide, by decide⟩))

/-- The entry maps the values 3 and 4, the original has one value. No slot is written, and the
length is raised to 2. -/
theorem raised_unwritten :
    WellFormed (dataEntry 3 2) 4 (counting 0) (counting 1) ∧
      (mappingUpdate noStats (dataEntry 3 2) 4 (counting 0) (counting 1)).ret = 0 ∧
      (mappingUpdate noStats (dataEntry 3 2) 4 (counting 0) (counting 1)).stores = [] ∧
      (mappingUpdate noStats (dataEntry 3 2) 4 (counting 0) (counting 1)).remapped.length = 2 ∧
      ¬ WritesRange (dataEntry 3 2) 4 (counting 0) (counting 1)
        (mappingUpdate noStats (dataEntry 3 2) 4 (counting 0) (counting 1)) := by
  refine ⟨dataEntry_wellFormed (by decide) (by decide), rfl, rfl, rfl, ?_⟩
  rintro (⟨hne, -⟩ | ⟨-, hin⟩)
  · exact hne rfl
  · rcases hin.length with hsame | ⟨-, ⟨s, hs, -⟩, -⟩
    · exact absurd hsame (by decide)
    · exact absurd hs List.not_mem_nil

end VillasNode.MappingRange
