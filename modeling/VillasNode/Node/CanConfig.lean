import VillasNode.Node.CanWrite

/-!
# The configuration of a CAN node

`can_parse` of `lib/nodes/can.cpp`. The size and the offset of a signal are
checked one by one. The result of each `calloc` is given.
-/

namespace VillasNode.Can

open ByteOrder ByteMemory Runs

/-- The part of a `signal` that is looked at. -/
structure NodeSignal where
  name : Option String
  type : SignalType

/-- An element of the array `signals`. Integers have 64 bits. -/
structure SignalConfig where
  name : Option String
  canId : Option (BitVec 64)
  canSize : Option (BitVec 64)
  canOffset : Option (BitVec 64)

inductive Refusal where
  | size (canSize : Int)
  | offset (canOffset : Int)
  | name
  | memory
deriving DecidableEq

/-- The id of the `ConfigError`. -/
def Refusal.id : Refusal → Option String
  | .size _ => some "node-config-node-can-can-size"
  | .offset _ => some "node-config-node-can-can-offset"
  | .name => some "node-config-node-can-signa;s"
  | .memory => none

/-- `undefined` is a use of a null pointer. -/
inductive Parsed (α : Type) where
  | accepted (a : α)
  | refused (r : Refusal)
  | undefined
deriving DecidableEq

/-- `i` of `json_unpack`, into an `int`. -/
def unpackInt (value : Option (BitVec 64)) (default : Int) : Int :=
  match value with
  | none => default
  | some v => (v.setWidth 32).toInt

/-- `i` of `json_unpack`, into the first bytes of a `uint64_t` that is 0. -/
def unpackId (h : Host) (value : Option (BitVec 64)) : BitVec 32 :=
  match value with
  | none => 0
  | some v =>
    (ByteOrder.load h.endian 64
      (store h.endian 32 (v.setWidth 32) ++ List.replicate 4 0)).setWidth 32

/-- An element of the array and the signal of the node at its index. -/
abbrev Entry := SignalConfig × NodeSignal

section
variable (h : Host)

def Entry.size (e : Entry) : Int := unpackInt e.1.canSize 8

def Entry.offset (e : Entry) : Int := unpackInt e.1.canOffset 0

def canParseSignal (e : Entry) : Parsed CanSignal :=
  if e.size > 8 ∨ e.size ≤ 0 then .refused (.size e.size)
  else if e.offset > 8 ∨ e.offset < 0 then .refused (.offset e.offset)
  else
    match e.1.name, e.2.name with
    | some _, none => .undefined
    | name, name' =>
      if name = name' then
        .accepted ⟨unpackId h e.1.canId, e.offset.toNat, e.size.toNat, e.2.type⟩
      else .refused .name

def parseSignals : List Entry → Parsed (List CanSignal)
  | [] => .accepted []
  | e :: rest =>
    match canParseSignal h e with
    | .refused r => .refused r
    | .undefined => .undefined
    | .accepted s =>
      match parseSignals rest with
      | .accepted signals => .accepted (s :: signals)
      | other => other

/-- The signals to read and those to write. -/
structure Signals where
  ins : List CanSignal
  outs : List CanSignal

/-- `hasIn` and `hasOut` tell whether `calloc` returned a pointer. -/
def canParse (hasIn hasOut : Bool) (jsonIn jsonOut : List Entry) : Parsed Signals :=
  if ¬ hasIn then .refused .memory
  else if hasOut then .refused .memory
  else
    match parseSignals h jsonIn with
    | .refused r => .refused r
    | .undefined => .undefined
    | .accepted ins =>
      match jsonOut with
      | [] => .accepted ⟨ins, []⟩
      | e :: _ =>
        match canParseSignal h e with
        | .refused r => .refused r
        -- A layout is stored through `c->out`, which is null.
        | _ => .undefined

/-! ## The specification -/

def Entry.Valid (e : Entry) : Prop :=
  0 < e.size ∧ 0 ≤ e.offset ∧ e.offset + e.size ≤ 8 ∧ e.1.name = e.2.name

/-- The bytes of the payload that are read for this frame. -/
def readAt (signals : List CanSignal) (c : Can) (frame : CanFrame) : List Access :=
  (scan h frame.canId signals c.sampleBuf ⟨frame.data, []⟩ c.sampleBufNum false).frame.log

/-- Nothing is accessed but payloads, and no frame is longer than a payload. -/
structure Safe (signals : Signals) : Prop where
  read : ∀ frames, Along (fun c f => some (canRead h signals.ins c f).1)
    (fun c f => ∀ a ∈ readAt h signals.ins c f, a.index < 8) (.prepare signals.ins) frames
  written : ∀ smps, ∀ a ∈ (canWrite h signals.outs smps).frames.memory.log, 8 ≤ a.index % 16
  dlc : ∀ smps, ∀ f ∈ (canWrite h signals.outs smps).sent, (f.getD 4 0).toNat ≤ 8

/-- If there is memory, valid lists are accepted. Accepted lists are safe. -/
def AcceptsSafely (hasIn hasOut : Bool) (jsonIn jsonOut : List Entry) : Prop :=
  (hasIn → hasOut → (∀ e ∈ jsonIn ++ jsonOut, e.Valid) →
    ∃ signals, canParse h hasIn hasOut jsonIn jsonOut = .accepted signals) ∧
  ∀ signals, canParse h hasIn hasOut jsonIn jsonOut = .accepted signals → Safe h signals

/-- The checks of `can_parse_signal`. -/
def Entry.Checked (e : Entry) : Prop :=
  (0 < e.size ∧ e.size ≤ 8) ∧ (0 ≤ e.offset ∧ e.offset ≤ 8) ∧ e.1.name = e.2.name

def Entry.layout (e : Entry) : CanSignal :=
  ⟨unpackId h e.1.canId, e.offset.toNat, e.size.toNat, e.2.type⟩

/-- What is read of a frame ends within its payload. -/
def ReadsFit (signals : List CanSignal) : Prop :=
  ∀ id, ∀ s ∈ (signals.filter (·.id = id)).takeWhile (·.supported), s.offset + s.width ≤ 8

end

/-! ## What is accepted -/

section
variable {h : Host} {e : Entry} {es : List Entry}

theorem canParseSignal_accepted_iff {s : CanSignal} :
    canParseSignal h e = .accepted s ↔ e.Checked ∧ s = e.layout h := by
  rw [canParseSignal, Entry.Checked]
  by_cases hsize : e.size > 8 ∨ e.size ≤ 0
  · rw [if_pos hsize]
    exact iff_of_false nofun fun hchecked => by omega
  · rw [if_neg hsize]
    by_cases hoffset : e.offset > 8 ∨ e.offset < 0
    · rw [if_pos hoffset]
      exact iff_of_false nofun fun hchecked => by omega
    · rw [if_neg hoffset]
      have hin : (0 < e.size ∧ e.size ≤ 8) ∧ 0 ≤ e.offset ∧ e.offset ≤ 8 := by omega
      split
      · next name name' hname hname' =>
        rw [hname, hname']
        exact iff_of_false nofun fun hchecked => nomatch hchecked.1.2.2
      · by_cases hname : e.1.name = e.2.name
        · rw [if_pos hname]
          simp [hin, hname, Entry.layout, eq_comm]
        · rw [if_neg hname]
          exact iff_of_false nofun fun hchecked => hname hchecked.1.2.2

theorem parseSignals_accepted_iff {signals : List CanSignal} :
    parseSignals h es = .accepted signals ↔
      (∀ e ∈ es, e.Checked) ∧ signals = es.map (Entry.layout h) := by
  induction es generalizing signals with
  | nil => simp [parseSignals, eq_comm]
  | cons e es ih =>
    have hhead := fun s => @canParseSignal_accepted_iff h e s
    rw [parseSignals, List.forall_mem_cons, List.map_cons]
    cases hparse : canParseSignal h e with
    | refused r =>
      refine iff_of_false nofun fun hall => ?_
      cases hparse.symm.trans ((hhead _).mpr ⟨hall.1.1, rfl⟩)
    | undefined =>
      refine iff_of_false nofun fun hall => ?_
      cases hparse.symm.trans ((hhead _).mpr ⟨hall.1.1, rfl⟩)
    | accepted s =>
      obtain ⟨hchecked, rfl⟩ := (hhead s).mp hparse
      cases hrest : parseSignals h es with
      | refused r =>
        refine iff_of_false nofun fun hall => ?_
        cases hrest.symm.trans (ih.mpr ⟨hall.1.2, rfl⟩)
      | undefined =>
        refine iff_of_false nofun fun hall => ?_
        cases hrest.symm.trans (ih.mpr ⟨hall.1.2, rfl⟩)
      | accepted rest =>
        obtain ⟨hall, rfl⟩ := ih.mp hrest
        rw [Parsed.accepted.injEq]
        exact ⟨fun heq => ⟨⟨hchecked, hall⟩, heq.symm⟩, fun heq => heq.2.symm⟩

theorem canParse_accepted_iff {hasIn hasOut : Bool} {jsonIn jsonOut : List Entry}
    {signals : Signals} :
    canParse h hasIn hasOut jsonIn jsonOut = .accepted signals ↔
      (hasIn ∧ ¬ hasOut ∧ jsonOut = [] ∧ ∀ e ∈ jsonIn, e.Checked) ∧
        signals = ⟨jsonIn.map (Entry.layout h), []⟩ := by
  have hins := fun ins => @parseSignals_accepted_iff h jsonIn ins
  rw [canParse]
  by_cases hin : hasIn
  · by_cases hout : hasOut
    · simp [hin, hout]
    · rw [if_neg (not_not.mpr hin), if_neg hout]
      cases hparse : parseSignals h jsonIn with
      | refused r =>
        refine iff_of_false nofun fun hall => ?_
        have hsome := (hins _).mpr ⟨hall.1.2.2.2, rfl⟩
        rw [hparse] at hsome
        cases hsome
      | undefined =>
        refine iff_of_false nofun fun hall => ?_
        have hsome := (hins _).mpr ⟨hall.1.2.2.2, rfl⟩
        rw [hparse] at hsome
        cases hsome
      | accepted ins =>
        obtain ⟨hchecked, rfl⟩ := (hins ins).mp hparse
        cases jsonOut with
        | nil =>
          rw [Parsed.accepted.injEq]
          exact ⟨fun heq => ⟨⟨hin, hout, rfl, hchecked⟩, heq.symm⟩, fun heq => heq.2.symm⟩
        | cons e rest =>
          refine iff_of_false ?_ fun hall => nomatch hall.1.2.2.1
          simp only
          split <;> nofun
  · simp [hin]

end

/-! ## What is read -/

section
variable {h : Host} {signals : List CanSignal} {c : Can} {f : CanFrame}

theorem mem_readAt (hclean : List.Forall₂ (Clean h) signals c.sampleBuf) {a : Access} :
    a ∈ readAt h signals c f ↔
      ∃ s ∈ (signals.filter (·.id = f.canId)).takeWhile (·.supported),
        ∃ i, s.offset ≤ i ∧ i < s.offset + s.width ∧ a = .read i := by
  rw [readAt, scan_log hclean]
  simp [List.mem_flatMap, List.mem_range'_1, and_assoc, eq_comm]

theorem canRead_clean (hclean : List.Forall₂ (Clean h) signals c.sampleBuf) :
    List.Forall₂ (Clean h) signals (canRead h signals c f).1.sampleBuf := by
  have hscan := @scan_clean h f.canId signals c.sampleBuf ⟨f.data, []⟩ c.sampleBufNum false hclean
  rw [canRead]
  split
  · exact hscan
  · split
    · exact hscan
    · exact hscan

theorem along_reads (hfit : ReadsFit signals) (frames : List CanFrame)
    (hclean : List.Forall₂ (Clean h) signals c.sampleBuf) :
    Along (fun c f => some (canRead h signals c f).1)
      (fun c f => ∀ a ∈ readAt h signals c f, a.index < 8) c frames := by
  induction frames generalizing c with
  | nil => trivial
  | cons f frames ih =>
    rw [along_cons_iff rfl]
    refine ⟨fun a ha => ?_, ih (canRead_clean hclean)⟩
    obtain ⟨s, hs, i, -, hi, rfl⟩ := (mem_readAt hclean).mp ha
    exact Nat.lt_of_lt_of_le hi (hfit f.canId s hs)

theorem readsFit_of_along (hread : ∀ frames, Along (fun c f => some (canRead h signals c f).1)
    (fun c f => ∀ a ∈ readAt h signals c f, a.index < 8) (.prepare signals) frames) :
    ReadsFit signals := by
  intro id s hs
  have hsup : s.supported := List.mem_takeWhile_imp hs
  obtain ⟨hpos, -⟩ := width_pos hsup
  have hfirst := (along_cons_iff rfl).mp (hread [⟨id, 0, []⟩])
  have hlast := hfirst.1 (.read (s.offset + s.width - 1))
    ((mem_readAt (inv_prepare h signals).clean).mpr ⟨s, hs, _, by omega, by omega, rfl⟩)
  rw [Access.index] at hlast
  omega

theorem safe_iff : Safe h ⟨signals, []⟩ ↔ ReadsFit signals := by
  constructor
  · exact fun hsafe => readsFit_of_along hsafe.read
  · intro hfit
    have hnone := @canWrite_of_owns_zero h [] rfl
    refine ⟨fun frames => along_reads hfit frames (inv_prepare h signals).clean, ?_, ?_⟩
    · intro smps a ha
      rw [(hnone smps).1] at ha
      cases ha
    · intro smps f hf
      rw [(hnone smps).2] at hf
      cases hf

end

/-- For every pair of lists: valid ones are accepted and accepted ones are safe, if and only if one
is not valid where both have memory, and what is read fits where only the first has and the second
is empty. -/
theorem acceptsSafely_iff (h : Host) (hasIn hasOut : Bool) (jsonIn jsonOut : List Entry) :
    AcceptsSafely h hasIn hasOut jsonIn jsonOut ↔
      (hasIn → hasOut → ∃ e ∈ jsonIn ++ jsonOut, ¬ e.Valid) ∧
        (hasIn → ¬ hasOut → jsonOut = [] → (∀ e ∈ jsonIn, e.Checked) →
          ReadsFit (jsonIn.map (Entry.layout h))) := by
  rw [AcceptsSafely]
  apply and_congr
  · refine imp_congr_right fun hin => imp_congr_right fun hout => ?_
    have hno : ¬ ∃ signals, canParse h hasIn hasOut jsonIn jsonOut = .accepted signals := by
      rintro ⟨signals, haccepted⟩
      exact (canParse_accepted_iff.1 haccepted).1.2.1 hout
    rw [imp_iff_not hno]
    push Not
    rfl
  · constructor
    · intro hsafe hin hout hnil hchecked
      exact safe_iff.1 (hsafe _ (canParse_accepted_iff.2 ⟨⟨hin, hout, hnil, hchecked⟩, rfl⟩))
    · intro hfit signals haccepted
      obtain ⟨⟨hin, hout, hnil, hchecked⟩, rfl⟩ := canParse_accepted_iff.1 haccepted
      exact safe_iff.2 (hfit hin hout hnil hchecked)

def validEntry : Entry := (⟨none, none, none, none⟩, ⟨none, .float⟩)

def farEntry : Entry := (⟨none, none, none, some 8⟩, ⟨none, .float⟩)

/-- A valid signal is refused although there is memory. One behind the payload is accepted where
there is none. -/
theorem not_acceptsSafely_valid :
    validEntry.Valid ∧ ¬ AcceptsSafely littleHost true true [validEntry] [] ∧
      ¬ AcceptsSafely littleHost true false [farEntry] [] := by
  have hvalid : validEntry.Valid := ⟨by decide, by decide, by decide, rfl⟩
  refine ⟨hvalid, fun hsafe => ?_, fun hsafe => ?_⟩
  · obtain ⟨signals, haccepted⟩ := hsafe.1 rfl rfl (by simpa using hvalid)
    cases haccepted
  · have hfit := safe_iff.1 (hsafe.2 ⟨[farEntry.layout littleHost], []⟩ rfl)
    exact absurd (hfit 0 (farEntry.layout littleHost) List.mem_cons_self) (by decide)

end VillasNode.Can
