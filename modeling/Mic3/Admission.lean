import Mic3.Origins

/-! Admission bounds. The two counts that a call under limits makes under the admission lock still bound the
unfinished runs of the API when the call commits: operators' runs are not among them, and only an
owner of that lock adds one. -/
namespace Mic3
open Relational Interleaving

theorem Write.active {row row' : Run} {artifacts : List RunArtifact} {events : List OutboxEvent}
    (h : Write row row' artifacts events) : row.status.active = true := by
  cases h <;> simp_all [RunStatus.active]

theorem UnitOfWork.Allowed.active {u : UnitOfWork} (h : u.Allowed) (ha : u.row.status.active = true) :
    u.loaded.status.active = true := by
  rcases h with ⟨hrow, -⟩ | hw
  · rwa [hrow] at ha
  · exact hw.active

theorem UnitOfWork.Allowed.requester {u : UnitOfWork} (h : u.Allowed) :
    u.row.id = u.loaded.id ∧ u.row.requestedBy = u.loaded.requestedBy := by
  have hloaded : u.loaded.Carries ⟨u.loaded.id, u.loaded.modelReleaseId, u.loaded.requestedBy,
      u.loaded.parameters, u.loaded.fingerprint⟩ := ⟨rfl, rfl, rfl, rfl, rfl⟩
  have hcarries := h.carries hloaded
  exact ⟨hcarries.id, hcarries.requestedBy⟩

def Effect.submits : Effect → Bool
  | .commit (.submit ..) _ => true
  | _ => false

theorem Effect.submits_iff (e : Effect) :
    e.submits = true ↔ ∃ row event entries, e = .commit (.submit row event) entries := by
  cases e with
  | commit change entries => cases change <;> simp [submits]
  | _ => simp [submits]

/-- The submission of a run under limits. -/
def Entry.admits (id : UUID) : Entry → Bool
  | .submitted run _ limits => run = id && limits.isSome
  | _ => false

/-- Whether a call under limits, so one of the API, submitted the run. -/
def World.admitted (w : World) (id : UUID) : Bool := w.history.any (Entry.admits id)

/-- The queued and running runs of the API, of some of the requesters. -/
def World.admittedCount (w : World) (own : Option UUID → Bool) : ℕ :=
  w.tables.runs.count fun r => r.status.active && w.admitted r.id && own r.requestedBy

theorem World.admitted_iff {w : World} {id : UUID} : w.admitted id = true ↔
    ∃ read limits, Entry.submitted id read (some limits) ∈ w.history := by
  simp only [World.admitted, List.any_eq_true]
  constructor
  · rintro ⟨entry, hm, hadmits⟩
    cases entry with
    | submitted run read limits =>
      simp only [Entry.admits, Bool.and_eq_true, decide_eq_true_eq] at hadmits
      obtain ⟨rfl, hsome⟩ := hadmits
      obtain ⟨limits, rfl⟩ := Option.isSome_iff_exists.mp hsome
      exact ⟨read, limits, hm⟩
    | _ => contradiction
  · rintro ⟨read, limits, hm⟩
    exact ⟨_, hm, by simp [Entry.admits]⟩

/-- The two counts that limits are checked against, taken over all runs, bound those of the API. -/
theorem World.admittedCount_le (w : World) :
    w.admittedCount (fun _ => true) ≤ w.tables.activeCount ∧
      ∀ user, w.admittedCount (· = user) ≤ w.tables.ownedCount user := by
  refine ⟨Table.count_mono fun r _ hr => ?_, fun user => Table.count_mono fun r _ hr => ?_⟩
  · simp only [Bool.and_eq_true] at hr
    exact hr.1.1
  · simp only [Bool.and_eq_true] at hr ⊢
    exact ⟨hr.1.1, hr.2⟩

theorem RunAdmissionLimits.check_ok {limits : RunAdmissionLimits} {userCount totalCount : ℕ}
    (h : limits.check userCount totalCount = .ok ()) :
    userCount < limits.perUser ∧ totalCount < limits.globalTotal := by
  unfold check at h
  split at h
  · contradiction
  · split at h
    · contradiction
    · exact ⟨Nat.lt_of_not_le ‹_›, Nat.lt_of_not_le ‹_›⟩

/-- One more run of the requester keeps within the limits. -/
def World.HasRoom (w : World) (limits : RunAdmissionLimits) (requestedBy : Option UUID) : Prop :=
  w.admittedCount (fun _ => true) < limits.globalTotal ∧
    w.admittedCount (· = requestedBy) < limits.perUser

/-- What a call under limits knows from its first count on. -/
def SubmitRun.Fits (call : SubmitRun) (w : World) : Pc → Prop
  | .countOwned _ _ total => w.admittedCount (fun _ => true) ≤ total
  | .findUser s | .insertRun s => ∀ limits ∈ call.limits, w.HasRoom limits s.run.requestedBy
  | .checkRelease _ row | .checkUser _ row | .insertEvent _ row | .commit _ row _ =>
    ∀ limits ∈ call.limits, w.HasRoom limits row.requestedBy
  | _ => True

def Proc.FitsLimits (w : World) : Proc → Prop
  | .submit call pc => call.Fits w pc
  | _ => True

/-- No step adds an unfinished run of the API without the admission lock. -/
def admission : Contract Pid World Proc where
  inv := fun _ => True
  assert := fun _ l w => l.FitsLimits w
  guarantee := fun p w w' => (∀ own, w'.admittedCount own ≤ w.admittedCount own) ∨
    w.pg.locks.owner (.advisory admissionLock) = some p

section Programs
variable {x : External} {p q : Pid} {w w' : World} {i : Input} {e : Effect} {l l' : Proc}

/-- A step adds no unfinished run of the API, or it is the commit of a call under limits and adds one. -/
theorem admittedCount_step (hs : l.next x p w i = (e, l')) (ha : w.apply p e = some w')
    (hal : e.Allowed w.tables) (hb : l.Builds) (ho : Origins w) :
    (∀ own, w'.admittedCount own ≤ w.admittedCount own) ∨
      ∃ call s row event, l = .submit call (.commit s row event) ∧ call.limits.isSome ∧
        ∀ own, w'.admittedCount own ≤ w.admittedCount own + if own row.requestedBy then 1 else 0 := by
  -- Whether an existing run is the API's does not change.
  have hadmitted : ∀ id, (w.tables.runs.find? id).isSome → w'.admitted id = w.admitted id := by
    intro id hid
    rw [Bool.eq_iff_iff, World.admitted_iff, World.admitted_iff]
    refine ⟨fun ⟨read, limits, hm⟩ => ?_, fun ⟨read, limits, hm⟩ => ⟨read, limits, history_subset ha hm⟩⟩
    rcases Proc.submitted_cases hs ha hb hm with hm | ⟨call, s, row, event, -, rfl, rfl, -, -⟩
    · exact ⟨read, limits, hm⟩
    · rw [(submit_new ha).1] at hid
      contradiction
  have hsame (own : Option UUID → Bool) : w.tables.runs.count
      (fun r => r.status.active && w'.admitted r.id && own r.requestedBy) = w.admittedCount own := by
    refine Table.count_congr fun r hr => ?_
    have hid : (w.tables.runs.find? r.id).isSome := by
      have hfind : w.tables.runs.find? r.id = some r := Table.find?_of_mem hr
      rw [hfind]
      rfl
    rw [hadmitted r.id hid]
  have hcount (own : Option UUID → Bool) := hal.count ha
    fun r => r.status.active && w'.admitted r.id && own r.requestedBy
  simp only [hsame] at hcount
  cases hadd : e.submits with
  | false =>
    refine .inl fun own => ?_
    rcases hcount own with h | ⟨row, event, entries, rfl, -, -⟩ | ⟨u, entries, rfl, hu, h⟩
    · exact h.le
    · contradiction
    · obtain ⟨hid, hrequested⟩ := hu.requester
      have h : w'.admittedCount own + _ = _ := h
      rw [hid, hrequested] at h
      by_cases hrow : u.row.status.active = true
      · rw [hrow, hu.active hrow] at h
        omega
      · simp only [hrow, Bool.false_and, Bool.false_eq_true, if_false] at h
        omega
  | true =>
    obtain ⟨row, event, entries, rfl⟩ := e.submits_iff.mp hadd
    obtain ⟨call, s, rfl, rfl⟩ := (Proc.commits hs rfl).of_submit
    have hle (own : Option UUID → Bool) : w'.admittedCount own ≤ w.admittedCount own +
        if row.status.active && w'.admitted row.id && own row.requestedBy then 1 else 0 := by
      rcases hcount own with h | ⟨row', event', entries', he, -, h⟩ | ⟨u, entries', he, -, -⟩
      · exact h.le.trans (Nat.le_add_right _ _)
      · obtain ⟨hchange, -⟩ := Effect.commit.inj he
        obtain ⟨rfl, -⟩ := Change.submit.inj hchange
        exact h.le
      · obtain ⟨hchange, -⟩ := Effect.commit.inj he
        contradiction
    cases hlimits : call.limits with
    | some limits =>
      refine .inr ⟨call, s, row, event, rfl, by simp [hlimits], fun own => (hle own).trans ?_⟩
      have hstep : (if row.status.active && w'.admitted row.id && own row.requestedBy then 1 else 0) ≤
          if own row.requestedBy then 1 else 0 := by
        cases own row.requestedBy with
        | false => simp
        | true => split <;> simp
      exact Nat.add_le_add_left hstep _
    | none =>
      -- An operator's run is not admitted, so it is not counted.
      have hnone : w'.admitted row.id = false := by
        refine Bool.eq_false_iff.mpr fun hadm => ?_
        obtain ⟨read, limits, hm⟩ := World.admitted_iff.mp hadm
        rcases Proc.submitted_cases hs ha hb hm with hm | ⟨call', s', row', event', hl, -, -, -, hsome⟩
        · have hknown := ho.known _ _ _ hm
          rw [(submit_new ha).1] at hknown
          contradiction
        · cases hl
          cases (hsome.trans hlimits)
      simp only [hnone, Bool.and_false, Bool.false_and, Bool.false_eq_true, if_false, add_zero] at hle
      exact .inl hle

/-- What a call under limits knows is what it counted under the admission lock. -/
theorem SubmitRun.fits_step {call : SubmitRun} {pc : SubmitRun.Pc} {r : Progress SubmitRun.Pc UUID}
    (hs : call.step w i pc = (e, r)) (hk : call.Fits w pc) (hb : call.Builds pc) (ha : w.apply p e = some w')
    (hle : e.commits = false → ∀ own, w'.admittedCount own ≤ w.admittedCount own) :
    r.All (call.Fits w') := by
  have hroom (hc : e.commits = false) {limits : RunAdmissionLimits} {requestedBy : Option UUID}
      (h : w.HasRoom limits requestedBy) : w'.HasRoom limits requestedBy :=
    ⟨(hle hc _).trans_lt h.1, (hle hc _).trans_lt h.2⟩
  rcases step_cases hs with ⟨rfl, err, rfl⟩ | hc
  · trivial
  cases pc with
  | getRelease =>
    obtain ⟨s, -, rfl, ⟨limits, -, rfl⟩ | ⟨hnone, rfl⟩⟩ := hc
    · trivial
    · have hno : ∀ limits ∈ call.limits, w'.HasRoom limits s.run.requestedBy := by simp [hnone]
      exact hno
  | lockAdmission s limits =>
    obtain ⟨rfl, rfl⟩ := hc
    trivial
  | countTotal s limits =>
    obtain ⟨rfl, rfl⟩ := hc
    exact (hle rfl _).trans w.admittedCount_le.1
  | countOwned s limits total =>
    obtain ⟨hcheck, rfl, rfl⟩ := hc
    obtain ⟨howned, htotal⟩ := RunAdmissionLimits.check_ok hcheck
    have hfits : w.HasRoom limits s.run.requestedBy :=
      ⟨hk.trans_lt htotal, (w.admittedCount_le.2 _).trans_lt howned⟩
    intro other hm
    obtain rfl : other = limits := Option.some.inj (hm.symm.trans hb.2)
    exact hroom rfl hfits
  | findUser s =>
    obtain ⟨rfl, rfl⟩ := hc
    exact fun limits hm => hroom rfl (hk limits hm)
  | insertRun s =>
    obtain ⟨-, rfl, rfl⟩ := hc
    exact fun limits hm => hroom rfl (hk limits hm)
  | checkRelease s row =>
    obtain ⟨-, rfl, rfl⟩ := hc
    exact fun limits hm => hroom rfl (hk limits hm)
  | checkUser s row =>
    obtain ⟨⟨user, rfl⟩ | rfl, rfl⟩ := hc <;> exact fun limits hm => hroom rfl (hk limits hm)
  | insertEvent s row =>
    obtain ⟨rfl, rfl⟩ := hc
    exact fun limits hm => hroom rfl (hk limits hm)
  | commit s row event =>
    obtain ⟨-, rfl⟩ := hc
    trivial

/-- What another process does under its own locks leaves the room that a call counted. -/
theorem Proc.FitsLimits.stable (hk : l.FitsLimits w) (hl : Holding q l w) (hne : p ≠ q)
    (hg : admission.guarantee p w w') : l.FitsLimits w' := by
  cases l with
  | submit call pc =>
    have hle (hheld : Hold.lock (.advisory admissionLock) ∈ call.holds pc) :
        ∀ own, w'.admittedCount own ≤ w.admittedCount own := by
      refine hg.resolve_right fun howner => ?_
      have hq : w.pg.locks.owner (.advisory admissionLock) = some q := hl.valid _ hheld
      exact hne (Option.some.inj (howner.symm.trans hq))
    have hadm {limits : RunAdmissionLimits} (hm : limits ∈ call.limits) :
        Hold.lock (.advisory admissionLock) ∈ call.admission := by
      simp [SubmitRun.admission, Option.mem_def.mp hm]
    have hroom {limits : RunAdmissionLimits} {requestedBy : Option UUID}
        (hheld : Hold.lock (.advisory admissionLock) ∈ call.holds pc)
        (h : w.HasRoom limits requestedBy) : w'.HasRoom limits requestedBy :=
      ⟨(hle hheld _).trans_lt h.1, (hle hheld _).trans_lt h.2⟩
    cases pc with
    | getRelease | lockAdmission | countTotal => trivial
    | countOwned => exact (hle (List.mem_singleton_self _) _).trans hk
    | findUser | insertRun => exact fun limits hm => hroom (hadm hm) (hk limits hm)
    | checkRelease | checkUser | insertEvent | commit =>
      exact fun limits hm => hroom (List.mem_cons_of_mem _ (hadm hm)) (hk limits hm)
  | _ => trivial

end Programs

theorem admittedCount_event {w w' : World} {ev : External.Event} (h : w.event ev = some w')
    (own : Option UUID → Bool) : w'.admittedCount own = w.admittedCount own := by
  obtain ⟨hruns, -⟩ := World.event_tables h
  simp only [World.admittedCount, World.admitted, hruns, World.event_history h]

theorem admission_layer (x : External) : Layer admission (origins.both (runHistory.both holding)) x where
  start := fun _ task _ => by cases task <;> trivial
  failing := by
    intro _ l _
    cases l with
    | reconcile worker runId pc => cases pc <;> trivial
    | _ => trivial
  refl := fun _ _ => .inl fun _ => le_rfl
  step := by
    intro p w i l e l' w' hs ha hinv hl _ _ hk
    obtain ⟨hb, hknows, hheld⟩ := hl
    obtain ⟨hal, -⟩ := Proc.knows_step hs hknows hheld ha
    have hstep := admittedCount_step hs ha hal hb hinv.1
    refine ⟨trivial, ?_, ?_⟩
    · cases l with
      | idle | unwinding =>
        obtain ⟨-, rfl⟩ := Prod.mk.inj hs
        trivial
      | submit call pc =>
        obtain ⟨rfl, rfl⟩ := Prod.mk.inj hs
        refine (SubmitRun.fits_step rfl hk hb ha fun hc => hstep.resolve_right ?_).proc
          (Q := fun l => l.FitsLimits w') (fun _ h => h) trivial
        rintro ⟨call', s, row, event, hl, -⟩
        cases hl
        contradiction
      | _ =>
        obtain ⟨-, rfl⟩ := Prod.mk.inj hs
        exact (Progress.all_true _).proc (Q := fun l => l.FitsLimits w') (fun _ _ => trivial) trivial
    · refine hstep.imp_right ?_
      rintro ⟨call, s, row, event, rfl, hsome, -⟩
      have howner : (Hold.lock (.advisory admissionLock)).Valid p w :=
        hheld.valid _ (by simp [Proc.holds, SubmitRun.holds, SubmitRun.admission, hsome])
      exact howner

theorem admission_proof (x : External) :
    admission.Proof (origins.both (runHistory.both holding)) (platform x) fun _ _ => True where
  act := by
    intro p a w l w' l' _ ha hinv hl hg hc hk
    exact (admission_layer x).act (fun _ _ _ => ⟨trivial, trivial, .of_nothing rfl rfl⟩) ha hinv hl hg hc hk
  stable := by
    intro p q l w w' hne _ hl _ hg _ hk
    exact hk.stable hl.2.2 hne hg
  env := by
    intro ev w w' _ he _ _
    have hsame := admittedCount_event he
    exact ⟨trivial, fun q l hl hk => hk.stable (p := q + 1) hl.2.2 (Nat.succ_ne_self q)
      (.inl fun own => (hsame own).le)⟩

theorem admission_established (x : External) :
    (admission.both (origins.both (runHistory.both holding))).Established (platform x) (fun _ _ => True)
      initial :=
  (admission_proof x).established (origins_established x) ⟨trivial, fun _ => trivial⟩

section Runs
variable {x : External} {c c' : Config Pid World Proc} {limits : RunAdmissionLimits}

/-- While a call under limits commits, its run fits. -/
theorem Reached.submission_fits (h : Reached x c) {p : Pid} {call : SubmitRun} {s : Submission} {row : Run}
    {event : OutboxEvent} (hp : c.procs p = .submit call (.commit s row event)) (hm : limits ∈ call.limits) :
    c.shared.HasRoom limits row.requestedBy := by
  have hk := (((admission_established x).holds c h).2 p).1
  rw [hp] at hk
  exact hk limits hm

/-- A step adds no unfinished run of the API, or it is the commit of a call under limits and adds one. -/
theorem Reached.admittedCount_step (h : Reached x c) {l : Label Pid Action External.Event}
    (hs : (platform x).step c l = some c') :
    (∀ own, c'.shared.admittedCount own ≤ c.shared.admittedCount own) ∨
      ∃ p call s row event, c.procs p = .submit call (.commit s row event) ∧ call.limits.isSome ∧
        ∀ own, c'.shared.admittedCount own ≤
          c.shared.admittedCount own + if own row.requestedBy then 1 else 0 := by
  cases l with
  | env ev =>
    obtain ⟨w, he, rfl⟩ := Option.map_eq_some_iff.mp hs
    exact .inl fun own => (admittedCount_event he own).le
  | act p a =>
    obtain ⟨⟨w, l⟩, ha, rfl⟩ := Option.map_eq_some_iff.mp hs
    have hholds := (origins_established x).holds c h
    obtain ⟨hb, hknows, hheld⟩ := hholds.2 p
    rcases platformAct_effect ha with rfl | rfl | ⟨i, hw⟩
    · exact .inl fun _ => le_rfl
    · exact .inl fun _ => le_rfl
    · obtain ⟨hal, -⟩ := Proc.knows_step rfl hknows hheld hw
      rcases Mic3.admittedCount_step rfl hw hal hb hholds.1.1 with hle | ⟨call, s, row, event, hrest⟩
      · exact .inl hle
      · exact .inr ⟨p, call, s, row, event, hrest⟩

/-- Calls are made under these limits or, by operators, under none. -/
def Task.SubmitsWithin (limits : RunAdmissionLimits) : Task → Prop
  | .submit call => call.limits = none ∨ call.limits = some limits
  | _ => True

/-- All calls are made under these limits. -/
def Task.SubmitsOnly (limits : RunAdmissionLimits) : Task → Prop
  | .submit call => call.limits = some limits
  | _ => True

theorem starts_within {w : World} {l : Label Pid Action External.Event} (h : Starts (Task.SubmitsOnly limits) w l) :
    Starts (Task.SubmitsWithin limits) w l := by
  cases l with
  | env ev => trivial
  | act p a =>
    cases a with
    | start task =>
      cases task with
      | submit call => exact .inr h
      | _ => trivial
    | _ => trivial

/-- Whatever operators do, the unfinished runs of the API keep within the limits. -/
theorem admitted_within_limits (h : Reachable (platform x) (Starts (Task.SubmitsWithin limits)) initial c) :
    c.shared.admittedCount (fun _ => true) ≤ limits.globalTotal ∧
      ∀ user, c.shared.admittedCount (· = user) ≤ limits.perUser := by
  refine h.invariant (fun c => c.shared.admittedCount (fun _ => true) ≤ limits.globalTotal ∧
    ∀ user, c.shared.admittedCount (· = user) ≤ limits.perUser)
    ⟨Nat.zero_le _, fun _ => Nat.zero_le _⟩ ?_
  intro c c' l hr ⟨htotal, howned⟩ _ hs
  have hreached : Reached x c := hr.mono fun _ _ _ => trivial
  rcases hreached.admittedCount_step hs with hle | ⟨p, call, s, row, event, hp, hsome, hle⟩
  · exact ⟨(hle _).trans htotal, fun user => (hle _).trans (howned user)⟩
  · have hlimits : limits ∈ call.limits := by
      have htask : Task.SubmitsWithin limits (.submit call) := started hr p _ (by rw [hp]; rfl)
      rcases htask with hnone | hsome'
      · rw [hnone] at hsome
        contradiction
      · exact hsome'
    obtain ⟨hroom, hroomOwned⟩ := hreached.submission_fits hp hlimits
    refine ⟨(hle _).trans hroom, fun user => (hle _).trans ?_⟩
    by_cases huser : row.requestedBy = user
    · subst huser
      simpa using Nat.succ_le_of_lt hroomOwned
    · simpa [huser] using howned user

/-- A submission of the history was made by a task that was started. -/
theorem submitted_task {P : Task → Prop} (h : Reachable (platform x) (Starts P) initial c) :
    ∀ id read given, Entry.submitted id read given ∈ c.shared.history →
      ∃ call, P (.submit call) ∧ call.limits = given := by
  refine h.invariant (fun c => ∀ id read given, Entry.submitted id read given ∈ c.shared.history →
    ∃ call, P (.submit call) ∧ call.limits = given) (fun _ _ _ hm => absurd hm List.not_mem_nil) ?_
  intro c c' l hr hall _ hs id read given hm
  have hreached : Reached x c := hr.mono fun _ _ _ => trivial
  cases l with
  | env ev =>
    obtain ⟨w, he, rfl⟩ := Option.map_eq_some_iff.mp hs
    exact hall id read given (World.event_history he ▸ hm)
  | act p a =>
    obtain ⟨⟨w, l⟩, ha, rfl⟩ := Option.map_eq_some_iff.mp hs
    have hb := (((origins_established x).holds c hreached).2 p).1
    rcases platformAct_effect ha with rfl | rfl | ⟨i, hw⟩
    · exact hall id read given hm
    · exact hall id read given hm
    · rcases Proc.submitted_cases rfl hw hb hm with hm | ⟨call, s, row, event, hp, -, -, -, rfl⟩
      · exact hall id read given hm
      · exact ⟨call, started hr p _ (by rw [hp]; rfl), rfl⟩

/-- Without operators, every run is one of the API. -/
theorem all_admitted (h : Reachable (platform x) (Starts (Task.SubmitsOnly limits)) initial c) {row : Run}
    (hrow : row ∈ c.shared.tables.runs.rows) : c.shared.admitted row.id = true := by
  have hreached : Reached x c := h.mono fun _ _ _ => trivial
  obtain ⟨call, s, -, -, hm⟩ := hreached.origins.rows row.id row (Table.find?_of_mem hrow)
  obtain ⟨call', hlimits, hgiven⟩ := submitted_task h _ _ _ hm
  have hsome : call.limits = some limits := hgiven.symm.trans hlimits
  exact World.admitted_iff.mpr ⟨s.read, limits, hsome ▸ hm⟩

theorem active_within_limits (h : Reachable (platform x) (Starts (Task.SubmitsOnly limits)) initial c) :
    c.shared.tables.activeCount ≤ limits.globalTotal ∧
      ∀ user, c.shared.tables.ownedCount user ≤ limits.perUser := by
  have hwithin : Reachable (platform x) (Starts (Task.SubmitsWithin limits)) initial c :=
    h.mono fun _ _ => starts_within
  obtain ⟨htotal, howned⟩ := admitted_within_limits hwithin
  have hactive : c.shared.tables.activeCount = c.shared.admittedCount (fun _ => true) :=
    Table.count_congr fun r hr => by simp [all_admitted h hr]
  have hown (user : Option UUID) : c.shared.tables.ownedCount user = c.shared.admittedCount (· = user) :=
    Table.count_congr fun r hr => by simp [all_admitted h hr]
  exact ⟨hactive.trans_le htotal, fun user => (hown user).trans_le (howned user)⟩

/-- A call writes nothing before its commit, which adds its run and its event together. -/
theorem submission_writes {p : Pid} {call : SubmitRun} {pc : SubmitRun.Pc} {a : Action}
    (hp : c.procs p = .submit call pc) (hs : (platform x).step c (.act p a) = some c') :
    c'.shared.tables = c.shared.tables ∨ ∃ s row event, pc = .commit s row event ∧
      (Change.submit row event).apply c.shared.tables = some c'.shared.tables := by
  obtain ⟨⟨w, l⟩, ha, rfl⟩ := Option.map_eq_some_iff.mp hs
  have ha : platformAct x p a c.shared (.submit call pc) = some (w, l) := hp ▸ ha
  rcases platformAct_effect ha with rfl | rfl | ⟨i, hw⟩
  · exact .inl rfl
  · exact .inl rfl
  · cases hcommit : ((Proc.submit call pc).next x p c.shared i).1.commits with
    | false => exact .inl (tables_apply hcommit hw)
    | true =>
      obtain ⟨change, entries, he⟩ := (Effect.commits_iff _).mp hcommit
      rw [he] at hw
      obtain ⟨tables, ht, rfl⟩ := commit_apply hw
      have hcommits : (Proc.submit call pc).Commits change entries :=
        Proc.commits (Prod.ext he rfl) rfl
      cases hcommits with
      | submit _ s row event => exact .inr ⟨s, row, event, rfl, ht⟩

/-- A refusal ends the call where it was checked. -/
theorem refusal_ends {p : Pid} {call : SubmitRun} {s : Submission} {total : ℕ} {err : Raised} {i : Input}
    (hp : c.procs p = .submit call (.countOwned s limits total))
    (hcheck : limits.check (c.shared.tables.ownedCount s.run.requestedBy) total = .error err)
    (hs : (platform x).step c (.act p (.run i)) = some c') :
    c'.shared.tables = c.shared.tables ∧ c'.procs p = .idle := by
  obtain ⟨⟨w, l⟩, ha, rfl⟩ := Option.map_eq_some_iff.mp hs
  have ha : platformAct x p (.run i) c.shared (.submit call (.countOwned s limits total)) = some (w, l) :=
    hp ▸ ha
  have hnext : (Proc.submit call (.countOwned s limits total)).next x p c.shared i = (.rollback, .idle) := by
    simp only [Proc.next, SubmitRun.step, hcheck, attempt]
    rfl
  simp only [platformAct, hnext] at ha
  obtain ⟨rfl, rfl⟩ := Prod.mk.inj (Option.some.inj ha)
  exact ⟨rfl, Function.update_self ..⟩

/-- Admission bounds. Whatever operators do, the queued and running runs of the API keep within its limits;
without operators all runs do; and a refused call ends without having written anything. -/
theorem admission_bounds (x : External) (limits : RunAdmissionLimits) :
    (∀ c, Reachable (platform x) (Starts (Task.SubmitsWithin limits)) initial c →
      c.shared.admittedCount (fun _ => true) ≤ limits.globalTotal ∧
        ∀ user, c.shared.admittedCount (· = user) ≤ limits.perUser) ∧
    (∀ c, Reachable (platform x) (Starts (Task.SubmitsOnly limits)) initial c →
      c.shared.tables.activeCount ≤ limits.globalTotal ∧
        ∀ user, c.shared.tables.ownedCount user ≤ limits.perUser) ∧
    (∀ c c' p call pc a, c.procs p = .submit call pc → (platform x).step c (.act p a) = some c' →
      c'.shared.tables = c.shared.tables ∨ ∃ s row event, pc = .commit s row event ∧
        (Change.submit row event).apply c.shared.tables = some c'.shared.tables) ∧
    ∀ c c' p call s total err i, c.procs p = .submit call (.countOwned s limits total) →
      limits.check (c.shared.tables.ownedCount s.run.requestedBy) total = .error err →
      (platform x).step c (.act p (.run i)) = some c' →
        c'.shared.tables = c.shared.tables ∧ c'.procs p = .idle :=
  ⟨fun _ h => admitted_within_limits h, fun _ h => active_within_limits h,
    fun _ _ _ _ _ _ hp hs => submission_writes hp hs,
    fun _ _ _ _ _ _ _ _ hp hcheck hs => refusal_ends hp hcheck hs⟩

end Runs

namespace Demo

def limits : RunAdmissionLimits := ⟨1, 2, by decide, by decide⟩

/-- A call of the API for this user. -/
def apiCall (user : UUID) : SubmitRun := ⟨1, .obj [("mode", .str "fast")], some user, some limits⟩

/-- A user submits a run, and calls again. -/
def outstanding : List Step :=
  runs 0 (.register registrable) (List.replicate 6 1) ++ [.env (.addUser 8)] ++
  runs 0 (.submit (apiCall 8)) [2, 2, 2, 2, 2, 2, 2, 2, 12, 12] ++ runs 0 (.submit (apiCall 8)) [3, 3, 3]

/-- The second call is about to count the runs of its user. -/
def isRefused (c : Config Pid World Proc) : Bool :=
  c.shared.tables.activeCount = 1 &&
    match c.procs 0 with
    | .submit _ (.countOwned s limits total) =>
      match limits.check (c.shared.tables.ownedCount s.run.requestedBy) total with
      | .error _ => true
      | .ok _ => false
    | _ => false

/-- More runs than the limits allow, of which an operator submitted the others. -/
def isCrowded (c : Config Pid World Proc) : Bool := c.shared.tables.activeCount = 3

theorem submissions_pass : (platform external).passes initial
    [(outstanding, isRefused), ([.act 0 (.run (input 3))], fun _ => true),
      (submits 1 4 14 ++ submits 1 5 15, isCrowded)] = true := by
  decide +kernel

theorem isRefused_iff {c : Config Pid World Proc} (h : isRefused c = true) :
    c.shared.tables.activeCount = 1 ∧ ∃ call s limits total err, c.procs 0 = .submit call (.countOwned s limits total) ∧
      limits.check (c.shared.tables.ownedCount s.run.requestedBy) total = .error err := by
  obtain ⟨hcount, hcheck⟩ := Bool.and_eq_true_iff.mp h
  refine ⟨of_decide_eq_true hcount, ?_⟩
  split at hcheck
  · split at hcheck
    · exact ⟨_, _, _, _, _, ‹_›, ‹_›⟩
    · exact absurd hcheck Bool.false_ne_true
  · exact absurd hcheck Bool.false_ne_true

theorem outstanding_limited (w : World) : ∀ l ∈ outstanding, Starts (Task.SubmitsOnly limits) w l := by
  intro l hl
  cases l with
  | env event => trivial
  | act p a =>
    cases a with
    | start task =>
      cases task with
      | submit call =>
        obtain rfl : call = apiCall 8 := by
          simp [outstanding, runs] at hl
          exact hl.2
        exact rfl
      | _ => trivial
    | _ => trivial

theorem submits_unlimited (w : World) (createdAt : Time) (id event : UUID) :
    ∀ l ∈ submits createdAt id event, Starts (Task.SubmitsWithin limits) w l := by
  intro l hl
  rcases List.mem_cons.mp hl with rfl | hl
  · exact .inl rfl
  · obtain ⟨uuid, -, rfl⟩ := List.mem_map.mp hl
    trivial

end Demo

/-- The second call of a user is refused, and the two runs of an operator are not counted for the API. -/
theorem admission_bounds_demo : ∃ c c' c'' : Config Pid World Proc,
    (c.shared.tables.activeCount = 1 ∧ c.shared.tables.activeCount ≤ Demo.limits.globalTotal ∧
      ∀ user, c.shared.tables.ownedCount user ≤ Demo.limits.perUser) ∧
    (platform Demo.external).step c (.act 0 (.run (Demo.input 3))) = some c' ∧
    (c'.shared.tables = c.shared.tables ∧ c'.procs 0 = .idle) ∧
    c''.shared.tables.activeCount = 3 ∧ c''.shared.admittedCount (fun _ => true) ≤ Demo.limits.globalTotal ∧
      ∀ user, c''.shared.admittedCount (· = user) ≤ Demo.limits.perUser := by
  obtain ⟨c, hc, hrefused, hrest⟩ := System.passes_cons Demo.submissions_pass
  obtain ⟨c', hc', -, hrest⟩ := System.passes_cons hrest
  obtain ⟨c'', hc'', hcrowded, -⟩ := System.passes_cons hrest
  obtain ⟨hcount, call, s, limits, total, err, hp, hcheck⟩ := Demo.isRefused_iff hrefused
  obtain ⟨hwithin, honly, -, -⟩ := admission_bounds Demo.external Demo.limits
  obtain ⟨-, -, -, hrefusal⟩ := admission_bounds Demo.external limits
  have hstep : (platform Demo.external).step c (.act 0 (.run (Demo.input 3))) = some c' := by
    obtain ⟨d, hs, hd⟩ := Option.bind_eq_some_iff.mp hc'
    obtain rfl : d = c' := Option.some.inj hd
    exact hs
  have hfirst := reachable_of_run Demo.outstanding_limited hc
  have hlast : Reachable (platform Demo.external) (Starts (Task.SubmitsWithin Demo.limits)) initial c'' := by
    have hbefore : Reachable (platform Demo.external) (Starts (Task.SubmitsWithin Demo.limits)) initial c :=
      hfirst.mono fun w l hl => starts_within hl
    have hrefused : Starts (Task.SubmitsWithin Demo.limits) c.shared (.act 0 (.run (Demo.input 3))) := trivial
    refine (hbefore.step hrefused hstep).trans (reachable_of_run (fun w l hl => ?_) hc'')
    rcases List.mem_append.mp hl with hl | hl
    · exact Demo.submits_unlimited w 1 4 14 l hl
    · exact Demo.submits_unlimited w 1 5 15 l hl
  exact ⟨c, c', c'', ⟨hcount, honly c hfirst⟩, hstep, hrefusal c c' 0 call s total err _ hp hcheck hstep,
    of_decide_eq_true hcrowded, hwithin c'' hlast⟩

end Mic3
