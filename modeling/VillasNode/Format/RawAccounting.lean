import VillasNode.Format.Raw

/-!
# What the raw format says it has written

`RawFormat::sprint` returns the number of samples that it was given, also when
the buffer was too small for them, and a buffer that is just large enough is
too small.
-/

namespace VillasNode.RawFormat

open ByteOrder ByteMemory MachineInt

variable (f : RawFormat)

/-! ## The specification -/

/-- The number of samples at the front whose words are all among the first `o` that were written. -/
def completed : List Payload → Nat → Nat
  | [], _ => 0
  | smp :: smps, o =>
    if chunkSlots (f.sampleChunks smp) ≤ o then
      completed smps (o - chunkSlots (f.sampleChunks smp)) + 1
    else 0

/-- The words that all samples need. A complex value needs two, the fake header three. -/
def needed (smps : List Payload) : Nat := chunkSlots (smps.flatMap f.sampleChunks)

def ValidSignals (smps : List Payload) : Prop :=
  ∀ smp ∈ smps, ∀ j < smp.length, f.sampleFormat smp j ≠ .invalid

/-- The number of completely written samples is returned, or an error for an invalid signal. All
writes are in the buffer, and all samples are written if they fit. -/
structure Accounts (buf : List Byte) (smps : List Payload) : Prop where
  returns : match (f.sprint buf smps).wbytes with
    | none => (f.sprint buf smps).ret = -1 ∧ ¬ f.ValidSignals smps
    | some _ => (f.sprint buf smps).ret = f.completed smps (f.sprint buf smps).out.o
  safe : ∀ a ∈ (f.sprint buf smps).out.mem.log, a.index < buf.length
  all : f.ValidSignals smps → f.needed smps * f.width ≤ buf.length →
    f.completed smps (f.sprint buf smps).out.o = smps.length

/-- There is nothing to write, or the width is supported and the words need less than the buffer and
less than 2^31 bytes; or an invalid signal comes before any check of the length fails. -/
def Accountable (buf : List Byte) (smps : List Payload) : Prop :=
  (f.ValidSignals smps ∧ smps.length < 2 ^ 31 ∧
    (f.needed smps = 0 ∨ f.Supported ∧ f.needed smps * f.width < buf.length ∧
      f.needed smps * f.width < 2 ^ 31)) ∨
  (¬ f.ValidSignals smps ∧ Passes buf.length 0 (smps.flatMap f.sampleChunks))

/-! ## Counting -/

section
variable {f}

theorem chunkSlots_append (cs cs' : List f.Chunk) :
    chunkSlots (cs ++ cs') = chunkSlots cs + chunkSlots cs' := by
  simp [chunkSlots]

theorem completed_le (smps : List Payload) (o : Nat) : f.completed smps o ≤ smps.length := by
  induction smps generalizing o with
  | nil => exact Nat.le_refl 0
  | cons smp smps ih =>
    unfold completed
    split
    · exact Nat.succ_le_succ (ih _)
    · exact Nat.zero_le _

theorem completed_eq_iff (smps : List Payload) (o : Nat) :
    f.completed smps o = smps.length ↔ f.needed smps ≤ o := by
  unfold needed
  induction smps generalizing o with
  | nil => exact iff_of_true rfl (Nat.zero_le o)
  | cons smp smps ih =>
    rw [List.flatMap_cons, chunkSlots_append, List.length_cons]
    unfold completed
    split
    · rw [Nat.add_right_cancel_iff, ih]
      omega
    · omega

theorem slots_zero_iff {cs : List f.Chunk} (hcs : ∀ c ∈ cs, c.Ok) :
    chunkSlots cs = 0 ↔ cs = [] := by
  cases cs with
  | nil => exact iff_of_true rfl rfl
  | cons c cs =>
    have hpos := (hcs c (by simp)).pos
    simp [chunkSlots]
    omega

theorem chunkWords_length {cs : List f.Chunk} (hcs : ∀ c ∈ cs, c.Ok)
    (hsome : ∀ c ∈ cs, c.words.isSome) :
    (chunkWords cs).length = if f.Supported then chunkSlots cs else 0 := by
  induction cs with
  | nil => simp [chunkWords, chunkSlots]
  | cons c cs ih =>
    rw [List.forall_mem_cons] at hcs hsome
    obtain ⟨xs, hxs⟩ := Option.isSome_iff_exists.mp hsome.1
    have hlen := hcs.1.length xs hxs
    have hrest := ih hcs.2 hsome.2
    have hwords : chunkWords (c :: cs) = xs ++ chunkWords cs := by simp [chunkWords, hxs]
    have hslots : chunkSlots (c :: cs) = c.slots + chunkSlots cs := by simp [chunkSlots]
    rw [hwords, hslots, List.length_append, hlen, hrest]
    split <;> rfl

theorem passes_iff {len : Nat} {cs : List f.Chunk} (hcs : ∀ c ∈ cs, c.Ok)
    (hsome : ∀ c ∈ cs, c.words.isSome) (hsupported : f.Supported) (o : Nat) :
    Passes len o cs ↔ cs = [] ∨
      (o + chunkSlots cs) * f.width < len ∧ (o + chunkSlots cs) * f.width < 2 ^ 31 := by
  induction cs generalizing o with
  | nil => exact iff_of_true trivial (.inl rfl)
  | cons c cs ih =>
    rw [List.forall_mem_cons] at hcs hsome
    obtain ⟨xs, hxs⟩ := Option.isSome_iff_exists.mp hsome.1
    have hlen := hcs.1.length xs hxs
    rw [if_pos hsupported] at hlen
    have hslots : o + chunkSlots (c :: cs) = o + c.slots + chunkSlots cs := by
      simp [chunkSlots]
      omega
    have hmono : (o + c.slots) * f.width ≤ (o + c.slots + chunkSlots cs) * f.width :=
      Nat.mul_le_mul_right _ (Nat.le_add_right _ _)
    rw [Passes, hxs, hslots]
    dsimp only
    rw [hlen, ih hcs.2 hsome.2]
    constructor
    · rintro ⟨hfirst, rfl | hrest⟩
      · exact .inr hfirst
      · exact .inr hrest
    · rintro (hnil | hrest)
      · cases hnil
      · exact ⟨by omega, .inr hrest⟩

theorem valueWords_none_iff (t : SignalType) (data : Value) :
    f.valueWords t data = none ↔ t = .invalid := by
  cases t <;> simp [valueWords]

theorem validSignals_iff (smps : List Payload) :
    f.ValidSignals smps ↔ ∀ c ∈ smps.flatMap f.sampleChunks, c.words.isSome := by
  have hvalue (smp : Payload) (j : Nat) :
      (f.valueChunk smp j).words.isSome ↔ f.sampleFormat smp j ≠ .invalid := by
    rw [Option.isSome_iff_ne_none]
    exact not_congr (valueWords_none_iff ..)
  constructor
  · intro hvalid c hc
    obtain ⟨smp, hsmp, hc⟩ := List.mem_flatMap.mp hc
    unfold sampleChunks at hc
    obtain hc | hc := List.mem_append.mp hc
    · split at hc
      · obtain rfl := List.mem_singleton.mp hc
        rfl
      · cases hc
    · obtain ⟨j, hj, rfl⟩ := List.mem_map.mp hc
      rw [List.mem_range'_1, Nat.zero_add] at hj
      exact (hvalue smp j).mpr (hvalid smp hsmp j hj.2)
  · intro hsome smp hsmp j hj
    apply (hvalue smp j).mp
    apply hsome
    apply List.mem_flatMap_of_mem hsmp
    apply List.mem_append_right
    exact List.mem_map_of_mem (List.mem_range'_1.mpr (by omega))

theorem writing_start (buf : List Byte) :
    f.Writing buf.length ⟨⟨buf, []⟩, 0⟩ [] := by
  refine ⟨rfl, ?_, rfl, ?_⟩
  · rw [Nat.mul_zero]
    rfl
  · intro a ha
    cases ha

theorem sprint_ends (buf : List Byte) (smps : List Payload) (hlen : buf.length < 2 ^ 63) :
    Ends buf.length (smps.flatMap f.sampleChunks) 0 []
      (f.printSamples buf.length smps ⟨⟨buf, []⟩, 0⟩) := by
  rw [printSamples_chunks]
  exact printChunks_ends hlen (chunks_ok smps) (writing_start buf) (by simp)

theorem returned_iff {smps : List Payload} (hcnt : smps.length < 2 ^ 32) (o : Nat) :
    toInt smps.length = f.completed smps o ↔ smps.length < 2 ^ 31 ∧ f.needed smps ≤ o := by
  have hle := f.completed_le smps o
  obtain hlt | hge := Nat.lt_or_ge smps.length (2 ^ 31)
  · rw [toInt_of_lt hlt, ← completed_eq_iff]
    omega
  · have hneg := toInt_neg hge hcnt
    omega

end

theorem Writing.inside {f : RawFormat} {buf : List Byte} {out : Output} {xs : List (BitVec f.bits)}
    (h : f.Writing buf.length out xs) : ∀ a ∈ out.mem.log, a.index < buf.length := by
  intro a ha
  rw [← h.length]
  exact h.safe a ha

/-- For every list of samples, width and buffer: the number that is returned is right, nothing is
written behind the buffer and all samples that fit are written, exactly where more bytes are left
than the samples need, or an error is returned. -/
theorem accounts_iff (buf : List Byte) (smps : List Payload) (hlen : buf.length < 2 ^ 63)
    (hcnt : smps.length < 2 ^ 32) : f.Accounts buf smps ↔ f.Accountable buf smps := by
  have hok : ∀ c ∈ smps.flatMap f.sampleChunks, c.Ok := chunks_ok smps
  have hends := f.sprint_ends buf smps hlen
  have hzero : f.needed smps = 0 ↔ smps.flatMap f.sampleChunks = [] := slots_zero_iff hok
  unfold Accountable
  rw [validSignals_iff]
  cases houtcome : f.printSamples buf.length smps ⟨⟨buf, []⟩, 0⟩ with
  | done out =>
    obtain ⟨hpasses, hsome, hwriting⟩ := hends.done out houtcome
    have hsprint : f.sprint buf smps =
        ⟨out, toInt smps.length, some (toSize (out.o * f.width))⟩ := by
      unfold sprint
      rw [houtcome]
    have ho : out.o = if f.Supported then f.needed smps else 0 := by
      rw [hwriting.count, List.nil_append]
      exact chunkWords_length hok hsome
    constructor
    · intro h
      have hreturns := h.returns
      rw [hsprint] at hreturns
      obtain ⟨hsmall, hall⟩ := (f.returned_iff hcnt out.o).mp hreturns
      refine .inl ⟨hsome, hsmall, ?_⟩
      by_cases hsupported : f.Supported
      · rw [passes_iff hok hsome hsupported, Nat.zero_add] at hpasses
        exact hpasses.imp hzero.mpr fun hroom => ⟨hsupported, hroom⟩
      · rw [if_neg hsupported] at ho
        exact .inl (by omega)
    · rintro (⟨-, hsmall, hneed⟩ | ⟨hinvalid, -⟩)
      · have hall : f.needed smps ≤ out.o := by
          rcases hneed with hnone | ⟨hsupported, -⟩
          · omega
          · rw [if_pos hsupported] at ho
            omega
        refine ⟨?_, ?_, fun _ _ => ?_⟩
        · rw [hsprint]
          exact (f.returned_iff hcnt out.o).mpr ⟨hsmall, hall⟩
        · rw [hsprint]
          exact hwriting.inside
        · rw [hsprint, completed_eq_iff]
          exact hall
      · exact absurd hsome hinvalid
  | full out =>
    obtain ⟨hfull, ho, -⟩ := hends.full out houtcome
    rw [Nat.zero_add] at ho
    have hsprint : f.sprint buf smps =
        ⟨out, toInt smps.length, some (toSize (out.o * f.width))⟩ := by
      unfold sprint
      rw [houtcome]
    refine iff_of_false (fun h => ?_) ?_
    · have hreturns := h.returns
      rw [hsprint] at hreturns
      have hall := ((f.returned_iff hcnt out.o).mp hreturns).2
      exact absurd hall (Nat.not_le.mpr ho)
    · rintro (⟨hsome, -, hnone | ⟨hsupported, hroom⟩⟩ | ⟨-, hpasses⟩)
      · apply hfull
        rw [hzero.mp hnone]
        trivial
      · apply hfull
        rw [passes_iff hok hsome hsupported, Nat.zero_add]
        exact .inr hroom
      · exact hfull hpasses
  | invalid out =>
    obtain ⟨hpasses, ⟨c, hc, hnone⟩, ys, hwriting⟩ := hends.invalid out houtcome
    have hsprint : f.sprint buf smps = ⟨out, -1, none⟩ := by
      unfold sprint
      rw [houtcome]
    have hinvalid : ¬ ∀ c ∈ smps.flatMap f.sampleChunks, c.words.isSome := by
      intro hsome
      have := hsome c hc
      rw [hnone] at this
      cases this
    refine iff_of_true ⟨?_, ?_, fun hvalid => ?_⟩ (.inr ⟨hinvalid, hpasses⟩)
    · rw [hsprint]
      refine ⟨rfl, ?_⟩
      rw [validSignals_iff]
      exact hinvalid
    · rw [hsprint]
      exact hwriting.inside
    · rw [validSignals_iff] at hvalid
      exact absurd hvalid hinvalid

/-! ## One integer -/

def rawExample (bits : Nat) (h : bits % 8 = 0 ∧ bits ≤ 128 ∧ 0 < bits) : RawFormat :=
  { endianess := .little, bits, fake := false, bits_ok := h
    conv := ⟨fun v => v.setWidth 32, fun w => w.setWidth 64⟩, signals := 0
    lists := fun _ => [.integer], realFirst := true }

def rawSample (v : Value) : Payload :=
  { sequence := 0, length := 1, flags := 0, signals := 0, origin := ⟨0, 0⟩, received := ⟨0, 0⟩
    data := fun _ => v }

theorem accounts_five_bytes :
    (rawExample 32 (by decide)).Accounts [0, 0, 0, 0, 0] [rawSample 7] ↔
      (rawExample 32 (by decide)).Accountable [0, 0, 0, 0, 0] [rawSample 7] :=
  accounts_iff _ _ _ (by decide) (by decide)

/-- One value of four bytes in a buffer of four bytes: nothing is written, and 1 is returned. -/
theorem exact_fit_lost :
    ((rawExample 32 (by decide)).sprint [0, 0, 0, 0] [rawSample 7]).ret = 1 ∧
      ((rawExample 32 (by decide)).sprint [0, 0, 0, 0] [rawSample 7]).wbytes = some 0 ∧
      (rawExample 32 (by decide)).needed [rawSample 7] * (rawExample 32 (by decide)).width = 4 ∧
      ¬ (rawExample 32 (by decide)).Accounts [0, 0, 0, 0] [rawSample 7] := by
  refine ⟨by decide, by decide, by decide, fun h => ?_⟩
  have hret : ((rawExample 32 (by decide)).sprint [0, 0, 0, 0] [rawSample 7]).ret =
      (rawExample 32 (by decide)).completed [rawSample 7]
        ((rawExample 32 (by decide)).sprint [0, 0, 0, 0] [rawSample 7]).out.o := h.returns
  exact absurd hret (by decide)

end VillasNode.RawFormat
