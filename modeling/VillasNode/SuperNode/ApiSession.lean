import Mathlib.Algebra.Group.Nat.Defs
import VillasNode.Lib.Runs

/-!
# Sessions of the API

`lib/api/session.cpp` with the worker of `lib/api.cpp`. libwebsockets reports
what a client sends, and that a session may write if this has been asked for;
the worker answers requests in a thread of its own, and the API may be stopped
at any time. A session is bound for one request.
-/

namespace VillasNode.ApiSession

/-! ## The code -/

inductive Method where
  | unknown
  | get
  | post
  | delete
  | options
  | put
  | patch
deriving DecidableEq

/-- What is written of a response. -/
inductive Piece (R : Type) where
  | headers (response : R)
  | body (response : R)
deriving DecidableEq

/-- What libwebsockets has reported of the request. -/
inductive Stage where
  | bound
  | receiving
  | received
deriving DecidableEq

/-- Whether a body follows. -/
def Stage.opened (follows : Bool) : Stage := if follows then .receiving else .received

structure Session (R : Type) where
  /-- There is a request. -/
  request : Bool
  response : Option R
  headersSent : Bool
  /-- How often the session is in `api->pending`. -/
  pending : Nat
  /-- The writeable callback has been asked for. -/
  writable : Bool
  stage : Stage
  wire : List (Piece R)
  /-- `lws_http_transaction_completed` -/
  completed : Bool
  /-- A null pointer has been used. -/
  fault : Bool
deriving DecidableEq

/-- The memory of a session is zero before it is bound. -/
def Session.bound {R : Type} : Session R where
  request := false
  response := none
  headersSent := false
  pending := 0
  writable := false
  stage := .bound
  wire := []
  completed := false
  fault := false

inductive Action (R : Type) where
  /-- `LWS_CALLBACK_HTTP`. The length is none when the header is too long, and zero when it is not a
  number. The request is made or not, and a body follows or not. -/
  | http (method : Method) (length : Option Nat) (created follows : Bool) (error : R)
  /-- `LWS_CALLBACK_HTTP_BODY` -/
  | body
  /-- `LWS_CALLBACK_HTTP_BODY_COMPLETION` -/
  | bodyComplete (decoded : Bool) (error : R)
  /-- The worker gets the session from `api->pending`. -/
  | worker (answer : R)
  /-- `LWS_CALLBACK_HTTP_WRITEABLE` -/
  | writeable
  /-- `Api::stop` -/
  | shutdown

section
variable {R : Type} (s : Session R)

/-- `open` makes a request, or an exception is caught. -/
def opens (method : Method) (length : Option Nat) (created : Bool) : Bool :=
  method ≠ .unknown && length.isSome && created

/-- The length is an `unsigned int`. -/
def hasBody (length : Option Nat) : Bool := length.getD 0 % 2 ^ 32 ≠ 0

def Session.open (method : Method) (length : Option Nat) (created : Bool) (error : R) : Session R :=
  if opens method length created then
    if method = .options then { s with request := true, writable := true }
    else if hasBody length then { s with request := true }
    else { s with request := true, pending := s.pending + 1 }
  else { s with response := some error, writable := true }

def Session.body : Session R := if s.request then s else { s with fault := true }

def Session.bodyComplete (decoded : Bool) (error : R) : Session R :=
  if s.request then
    if decoded then { s with pending := s.pending + 1 } else { s with response := some error }
  else { s with fault := true }

/-- The response, or that of the exception that is caught. -/
def Session.execute (answer : R) : Session R :=
  { s with response := some answer, writable := true }

/-- The callback with what is done for what it returns. -/
def Session.writeable : Session R :=
  if s.headersSent then
    match s.response with
    | none => { s with fault := true }
    | some r => { s with wire := s.wire ++ [.body r], completed := true, writable := false }
  else { s with wire := s.wire ++ (s.response.map .headers).toList, headersSent := true, writable := true }

def Session.shutdown : Session R := { s with writable := true }

def step (s : Session R) (a : Action R) : Option (Session R) :=
  if s.fault then none
  else
    match a with
    | .http method length created follows error =>
      if s.stage = .bound then
        some { s.open method length created error with stage := .opened follows }
      else none
    | .body => if s.stage = .receiving then some s.body else none
    | .bodyComplete decoded error =>
      if s.stage = .receiving then some { s.bodyComplete decoded error with stage := .received } else none
    | .worker answer =>
      if 0 < s.pending then some { s.execute answer with pending := s.pending - 1 } else none
    | .writeable => if s.writable ∧ ¬ s.completed then some s.writeable else none
    | .shutdown => some s.shutdown

end

/-! ## The specification -/

section
variable {R : Type}

/-- So many writeable callbacks without anything else. -/
def writes (k : Nat) : List (Action R) := List.replicate k .writeable

/-- No callback uses a null pointer, however often the session may write next. -/
def Session.Safe (s : Session R) : Prop :=
  ∀ k s', Runs.run step s (writes k) = some s' → s'.fault = false

/-- Nothing is asked for that needs a response before there is one, and there is a request for what is
received. -/
def Fine (s : Session R) : Action R → Prop
  | .http method length created _ _ => opens method length created → method ≠ .options
  | .body => s.request
  | .bodyComplete _ _ => s.request
  | .shutdown => s.response.isSome
  | .worker _ => True
  | .writeable => True

instance decidableFine (s : Session R) : ∀ a, Decidable (Fine s a)
  | .http method length created _ _ =>
    inferInstanceAs (Decidable (opens method length created → method ≠ .options))
  | .body => inferInstanceAs (Decidable (s.request = true))
  | .bodyComplete _ _ => inferInstanceAs (Decidable (s.request = true))
  | .shutdown => inferInstanceAs (Decidable (s.response.isSome = true))
  | .worker _ => .isTrue trivial
  | .writeable => .isTrue trivial

/-- A body follows exactly if there is to be one, and it can be decoded. -/
def Proper : Action R → Prop
  | .http method length created follows _ => follows = (opens method length created && hasBody length)
  | .bodyComplete decoded _ => decoded
  | _ => True

instance decidableProper : ∀ a : Action R, Decidable (Proper a)
  | .http method length created follows _ =>
    inferInstanceAs (Decidable (follows = (opens method length created && hasBody length)))
  | .bodyComplete decoded _ => inferInstanceAs (Decidable (decoded = true))
  | .body => .isTrue trivial
  | .shutdown => .isTrue trivial
  | .worker _ => .isTrue trivial
  | .writeable => .isTrue trivial

end

/-! ## What a step does -/

section
variable {R : Type} {s s' : Session R} {a : Action R} {as : List (Action R)}

inductive Moves (s : Session R) : Action R → Session R → Prop
  | options {length : Option Nat} {created follows : Bool} {error : R} (hstage : s.stage = .bound)
      (hopens : opens .options length created) :
      Moves s (.http .options length created follows error)
        { s with request := true, writable := true, stage := .opened follows }
  | waiting {method : Method} {length : Option Nat} {created follows : Bool} {error : R}
      (hstage : s.stage = .bound) (hopens : opens method length created) (hmethod : method ≠ .options)
      (hbody : hasBody length = true) :
      Moves s (.http method length created follows error) { s with request := true, stage := .opened follows }
  | ready {method : Method} {length : Option Nat} {created follows : Bool} {error : R}
      (hstage : s.stage = .bound) (hopens : opens method length created) (hmethod : method ≠ .options)
      (hbody : hasBody length = false) :
      Moves s (.http method length created follows error)
        { s with request := true, pending := s.pending + 1, stage := .opened follows }
  | refused {method : Method} {length : Option Nat} {created follows : Bool} {error : R}
      (hstage : s.stage = .bound) (hopens : opens method length created = false) :
      Moves s (.http method length created follows error)
        { s with response := some error, writable := true, stage := .opened follows }
  | body (hstage : s.stage = .receiving) (hrequest : s.request = true) : Moves s .body s
  | bodyNull (hstage : s.stage = .receiving) (hrequest : s.request = false) :
      Moves s .body { s with fault := true }
  | decoded {error : R} (hstage : s.stage = .receiving) (hrequest : s.request = true) :
      Moves s (.bodyComplete true error) { s with pending := s.pending + 1, stage := .received }
  | undecoded {error : R} (hstage : s.stage = .receiving) (hrequest : s.request = true) :
      Moves s (.bodyComplete false error) { s with response := some error, stage := .received }
  | completeNull {decoded : Bool} {error : R} (hstage : s.stage = .receiving) (hrequest : s.request = false) :
      Moves s (.bodyComplete decoded error) { s with fault := true, stage := .received }
  | worker {answer : R} (hpending : 0 < s.pending) :
      Moves s (.worker answer)
        { s with response := some answer, writable := true, pending := s.pending - 1 }
  | headers (hwritable : s.writable = true) (hcompleted : s.completed = false)
      (hsent : s.headersSent = false) :
      Moves s .writeable
        { s with wire := s.wire ++ (s.response.map .headers).toList, headersSent := true, writable := true }
  | null (hwritable : s.writable = true) (hcompleted : s.completed = false) (hsent : s.headersSent = true)
      (hresponse : s.response = none) : Moves s .writeable { s with fault := true }
  | reply {r : R} (hwritable : s.writable = true) (hcompleted : s.completed = false)
      (hsent : s.headersSent = true) (hresponse : s.response = some r) :
      Moves s .writeable { s with wire := s.wire ++ [.body r], completed := true, writable := false }
  | shutdown : Moves s .shutdown { s with writable := true }

theorem step_moves (hstep : step s a = some s') : s.fault = false ∧ Moves s a s' := by
  unfold step at hstep
  split at hstep
  · cases hstep
  · rename_i hfault
    refine ⟨by simpa using hfault, ?_⟩
    cases a with
    | http method length created follows error =>
      dsimp only at hstep
      split at hstep
      · rename_i hstage
        cases hstep
        unfold Session.open
        split_ifs with hopens hoptions hbody
        · subst hoptions
          exact .options hstage hopens
        · exact .waiting hstage hopens hoptions hbody
        · exact .ready hstage hopens hoptions (by simpa using hbody)
        · exact .refused hstage (by simpa using hopens)
      · cases hstep
    | body =>
      dsimp only at hstep
      split at hstep
      · rename_i hstage
        cases hstep
        unfold Session.body
        split
        · rename_i hrequest
          exact .body hstage hrequest
        · rename_i hrequest
          exact .bodyNull hstage (by simpa using hrequest)
      · cases hstep
    | bodyComplete decoded error =>
      dsimp only at hstep
      split at hstep
      · rename_i hstage
        cases hstep
        unfold Session.bodyComplete
        split_ifs with hrequest hdecoded
        · subst hdecoded
          exact .decoded hstage hrequest
        · obtain rfl : decoded = false := by simpa using hdecoded
          exact .undecoded hstage hrequest
        · exact .completeNull hstage (by simpa using hrequest)
      · cases hstep
    | worker answer =>
      dsimp only at hstep
      split at hstep
      · rename_i hpending
        cases hstep
        exact .worker hpending
      · cases hstep
    | writeable =>
      dsimp only at hstep
      split at hstep
      · rename_i hasked
        cases hstep
        have hcompleted : s.completed = false := by simpa using hasked.2
        unfold Session.writeable
        split
        · rename_i hsent
          split
          · rename_i hresponse
            exact .null hasked.1 hcompleted hsent hresponse
          · rename_i r hresponse
            exact .reply hasked.1 hcompleted hsent hresponse
        · rename_i hsent
          exact .headers hasked.1 hcompleted (by simpa using hsent)
      · cases hstep
    | shutdown =>
      cases hstep
      exact .shutdown

end

/-! ## Null pointers -/

/-- Whatever is asked for, there is a response for it. -/
structure Sound {R : Type} (s : Session R) : Prop where
  fault : s.fault = false
  writable : s.writable = true → s.response.isSome
  headersSent : s.headersSent = true → s.response.isSome
  completed : s.completed = true → s.response.isSome
  bound : s.stage = .bound → s = .bound

section
variable {R : Type} {s s' : Session R} {a : Action R} {as : List (Action R)}

theorem opened_ne_bound (follows : Bool) : Stage.opened follows ≠ .bound := by
  cases follows <;> simp [Stage.opened]

theorem sound_bound : Sound (Session.bound : Session R) := by
  constructor <;> simp [Session.bound]

theorem Sound.stage_ne (hs : Sound s) (hresponse : s.response.isSome) : s.stage ≠ .bound := by
  intro hstage
  rw [hs.bound hstage] at hresponse
  simp [Session.bound] at hresponse

theorem Sound.moves (hs : Sound s) (ha : Fine s a) (hmove : Moves s a s') : Sound s' := by
  cases hmove with
  | options _ hopens => exact absurd rfl (ha hopens)
  | waiting hstage | ready hstage | refused hstage =>
    rw [hs.bound hstage]
    constructor <;> simp [Session.bound, opened_ne_bound]
  | body => exact hs
  | bodyNull _ hrequest | completeNull _ hrequest =>
    have hsome : s.request = true := ha
    simp [hrequest] at hsome
  | decoded => exact ⟨hs.fault, hs.writable, hs.headersSent, hs.completed, by simp⟩
  | undecoded => exact ⟨hs.fault, by simp, by simp, by simp, by simp⟩
  | worker hpending =>
    refine ⟨hs.fault, by simp, by simp, by simp, fun hstage => ?_⟩
    rw [hs.bound hstage] at hpending
    simp [Session.bound] at hpending
  | headers hwritable =>
    have hsome := hs.writable hwritable
    exact ⟨hs.fault, fun _ => hsome, fun _ => hsome, fun _ => hsome,
      fun hstage => absurd hstage (hs.stage_ne hsome)⟩
  | null hwritable _ _ hresponse =>
    have hsome := hs.writable hwritable
    simp [hresponse] at hsome
  | reply hwritable =>
    have hsome := hs.writable hwritable
    exact ⟨hs.fault, by simp, fun _ => hsome, fun _ => hsome, fun hstage => absurd hstage (hs.stage_ne hsome)⟩
  | shutdown =>
    have hsome : s.response.isSome := ha
    exact ⟨hs.fault, fun _ => hsome, hs.headersSent, hs.completed,
      fun hstage => absurd hstage (hs.stage_ne hsome)⟩

theorem Sound.safe (hs : Sound s) : s.Safe := by
  intro k s' hrun
  have hfine : Runs.Along step Fine s (writes k) := by
    refine Runs.along_of_forall (fun a ha s => ?_) s
    rw [List.eq_of_mem_replicate ha]
    trivial
  have hsound := Runs.invariant (fun s a s' hs ha hstep => hs.moves ha (step_moves hstep).2) hs hfine hrun
  exact hsound.fault

theorem not_safe (hs : s.fault = false) (hresponse : s.response = none) (hwritable : s.writable = true)
    (hcompleted : s.completed = false) : ¬ s.Safe := by
  intro hsafe
  cases hsent : s.headersSent with
  | true =>
    have hfault := hsafe 1 { s with fault := true } (by
      simp [writes, Runs.run_cons, step, Session.writeable, hs, hsent, hresponse, hwritable, hcompleted])
    simp at hfault
  | false =>
    have hfault := hsafe 2 { s with headersSent := true, writable := true, fault := true } (by
      simp [writes, List.replicate_succ, Runs.run_cons, step, Session.writeable, hs, hsent, hresponse,
        hwritable, hcompleted])
    simp at hfault

theorem Sound.not_fine (hs : Sound s) (hmove : Moves s a s') (ha : ¬ Fine s a) : ¬ s'.Safe := by
  have hnull (s' : Session R) (hfault : s'.fault = true) : ¬ s'.Safe := by
    intro hsafe
    have hnot := hsafe 0 s' rfl
    simp [hfault] at hnot
  cases hmove with
  | options hstage =>
    rw [hs.bound hstage]
    exact not_safe rfl rfl rfl rfl
  | waiting _ _ hmethod | ready _ _ hmethod => exact absurd (fun _ => hmethod) ha
  | refused _ hopens => exact absurd (fun hopens' => by simp [hopens] at hopens') ha
  | body _ hrequest | decoded _ hrequest | undecoded _ hrequest => exact absurd hrequest ha
  | bodyNull | completeNull => exact hnull _ rfl
  | worker | headers | null | reply => exact absurd trivial ha
  | shutdown =>
    have hnone : s.response = none := by simpa [Fine] using ha
    have hcompleted : s.completed = false := by
      by_contra h
      have hsome := hs.completed (by simpa using h)
      simp [hnone] at hsome
    exact not_safe hs.fault hnone rfl hcompleted

end

/-- A null pointer cannot be reached by writeable callbacks from any state of a run, exactly if all
steps of the run are fine. -/
theorem session_safe_iff {R : Type} {as : List (Action R)} {t : Session R}
    (hrun : Runs.run step .bound as = some t) :
    (∀ front s, front <+: as → Runs.run step .bound front = some s → s.Safe) ↔
      Runs.Along step Fine Session.bound as := by
  refine Runs.prefixes_iff (fun s hs => hs.safe) ?_ ?_ sound_bound hrun
  · intro s a s' hs ha hstep
    exact hs.moves ha (step_moves hstep).2
  · intro s a s' hs hstep ha
    exact hs.not_fine (step_moves hstep).2 ha

/-- A request with a body, whose response is 1. -/
def examplePost : List (Action Nat) :=
  [.http .post (some 2) true true 0, .body, .bodyComplete true 0, .worker 1, .writeable, .writeable]

/-- A request without a response. -/
def exampleOptions : List (Action Nat) := [.http .options (some 0) true false 0]

theorem session_safe_example :
    (∀ front s, front <+: examplePost → Runs.run step .bound front = some s → s.Safe) ∧
    ¬ ∀ front s, front <+: exampleOptions → Runs.run step .bound front = some s → s.Safe := by
  obtain ⟨t, hpost⟩ : ∃ t, Runs.run step .bound examplePost = some t := ⟨_, rfl⟩
  obtain ⟨t', hoptions⟩ : ∃ t, Runs.run step .bound exampleOptions = some t := ⟨_, rfl⟩
  exact ⟨(session_safe_iff hpost).mpr (by decide),
    fun h => absurd ((session_safe_iff hoptions).mp h) (by decide)⟩

/-! ## Responses -/

/-- The pieces of the one response so far, and who has to act next. -/
structure Answering {R : Type} (s : Session R) : Prop where
  sound : Sound s
  /-- The request is answered once. -/
  pending : s.pending ≤ 1 ∧ (s.response.isSome → s.pending = 0 ∧ s.stage = .received)
  waiting : s.response = none → s.wire = [] ∧ s.headersSent = false ∧ s.completed = false ∧
    (s.stage = .received → s.pending = 1) ∧ (s.stage = .receiving → s.request = true ∧ s.pending = 0)
  wire : ∀ r, s.response = some r → s.wire =
    if s.completed then [.headers r, .body r] else if s.headersSent then [.headers r] else []
  asked : s.response.isSome → s.completed = false → s.writable = true
  sent : s.completed = true → s.headersSent = true

section
variable {R : Type} {s s' : Session R} {a : Action R}

theorem answering_bound : Answering (Session.bound : Session R) := by
  refine ⟨sound_bound, ?_, ?_, ?_, ?_, ?_⟩ <;> simp [Session.bound]

theorem Answering.moves (hs : Answering s) (ha : Fine s a) (hproper : Proper a) (hmove : Moves s a s') :
    Answering s' := by
  have hsound := hs.sound.moves ha hmove
  obtain ⟨hone, hanswered⟩ := hs.pending
  cases hmove with
  | options _ hopens => exact absurd rfl (ha hopens)
  | waiting hstage hopens _ hbody | ready hstage hopens _ hbody =>
    obtain rfl := hproper
    rw [hs.sound.bound hstage] at hsound ⊢
    refine ⟨hsound, ?_, ?_, ?_, ?_, ?_⟩ <;> simp [Session.bound, hopens, hbody, Stage.opened]
  | refused hstage hopens =>
    obtain rfl := hproper
    rw [hs.sound.bound hstage] at hsound ⊢
    refine ⟨hsound, ?_, ?_, ?_, ?_, ?_⟩ <;> simp [Session.bound, hopens, Stage.opened]
  | body => exact hs
  | bodyNull _ hrequest | completeNull _ hrequest =>
    have hsome : s.request = true := ha
    simp [hrequest] at hsome
  | decoded hstage =>
    have hnone : s.response = none := by
      by_contra h
      have hreceived := (hanswered (Option.isSome_iff_ne_none.mpr h)).2
      simp [hstage] at hreceived
    obtain ⟨hwire, hsent, hcompleted, -, hreceiving⟩ := hs.waiting hnone
    obtain ⟨-, hpending⟩ := hreceiving hstage
    refine ⟨hsound, ?_, ?_, ?_, ?_, hs.sent⟩ <;> simp [hnone, hwire, hsent, hcompleted, hpending]
  | undecoded => exact absurd hproper (by simp [Proper])
  | worker hpending =>
    have hnone : s.response = none := by
      by_contra h
      have hzero := (hanswered (Option.isSome_iff_ne_none.mpr h)).1
      omega
    obtain ⟨hwire, hsent, hcompleted, hreceived, hreceiving⟩ := hs.waiting hnone
    have hstage : s.stage = .received := by
      cases hstage : s.stage with
      | bound =>
        rw [hs.sound.bound hstage] at hpending
        simp [Session.bound] at hpending
      | receiving =>
        have hzero := (hreceiving hstage).2
        omega
      | received => rfl
    refine ⟨hsound, ?_, ?_, ?_, ?_, hs.sent⟩ <;> simp [hwire, hsent, hcompleted, hstage]
    omega
  | headers hwritable hcompleted hsent =>
    obtain ⟨r, hr⟩ := Option.isSome_iff_exists.mp (hs.sound.writable hwritable)
    have hwire := hs.wire r hr
    simp only [hcompleted, hsent] at hwire
    refine ⟨hsound, hs.pending, ?_, ?_, ?_, ?_⟩ <;> simp_all
  | null hwritable _ _ hresponse =>
    have hsome := hs.sound.writable hwritable
    simp [hresponse] at hsome
  | reply hwritable hcompleted hsent hresponse =>
    have hwire := hs.wire _ hresponse
    simp only [hcompleted, hsent] at hwire
    refine ⟨hsound, hs.pending, ?_, ?_, ?_, ?_⟩ <;> simp_all
  | shutdown => exact ⟨hsound, hs.pending, hs.waiting, hs.wire, fun _ _ => rfl, hs.sent⟩

theorem Answering.finishes {r : R} (hs : Answering s) (hr : s.response = some r) :
    ∃ k s', Runs.run step s (writes k) = some s' ∧ s'.wire = [.headers r, .body r] := by
  have hwire := hs.wire r hr
  have hsome : s.response.isSome := by simp [hr]
  cases hcompleted : s.completed with
  | true => exact ⟨0, s, rfl, by simp [hwire, hcompleted]⟩
  | false =>
    have hwritable := hs.asked hsome hcompleted
    have hfault := hs.sound.fault
    cases hsent : s.headersSent with
    | true =>
      refine ⟨1, { s with wire := s.wire ++ [.body r], completed := true, writable := false }, ?_, ?_⟩
      · simp [writes, Runs.run_cons, step, Session.writeable, hfault, hsent, hr, hwritable, hcompleted]
      · simp [hwire, hcompleted, hsent]
    | false =>
      refine ⟨2, { s with wire := s.wire ++ [.headers r] ++ [.body r], headersSent := true, completed := true
                          writable := false }, ?_, ?_⟩
      · simp [writes, List.replicate_succ, Runs.run_cons, step, Session.writeable, hfault, hsent, hr,
          hwritable, hcompleted]
      · simp [hwire, hcompleted, hsent]

end

/-- In a run whose steps are fine and proper nothing is written before there is a response. Then its
headers are written once and its body once, in this order, and the session may write until both are. -/
theorem session_answers {R : Type} {as : List (Action R)} {s : Session R}
    (hrun : Runs.run step .bound as = some s)
    (hgood : Runs.Along step (fun s a => Fine s a ∧ Proper a) Session.bound as) :
    (s.response = none → s.wire = []) ∧
    ∀ r, s.response = some r → s.wire <+: [.headers r, .body r] ∧
      ∃ k s', Runs.run step s (writes k) = some s' ∧ s'.wire = [.headers r, .body r] := by
  have hs : Answering s := Runs.invariant
    (fun s a s' hs ha hstep => hs.moves ha.1 ha.2 (step_moves hstep).2) answering_bound hgood hrun
  refine ⟨fun hnone => (hs.waiting hnone).1, fun r hr => ⟨?_, hs.finishes hr⟩⟩
  rw [hs.wire r hr]
  split_ifs <;> simp

theorem session_answers_example :
    ∃ s, Runs.run step .bound (examplePost.take 4) = some s ∧ s.response = some 1 ∧
      ∃ k s', Runs.run step s (writes k) = some s' ∧ s'.wire = [.headers 1, .body 1] := by
  obtain ⟨s, hrun, hr⟩ : ∃ s, Runs.run step .bound (examplePost.take 4) = some s ∧ s.response = some 1 :=
    ⟨_, rfl, rfl⟩
  have hgood : Runs.Along step (fun s a => Fine s a ∧ Proper a) Session.bound (examplePost.take 4) := by
    decide
  exact ⟨s, hrun, hr, ((session_answers hrun hgood).2 1 hr).2⟩

end VillasNode.ApiSession
