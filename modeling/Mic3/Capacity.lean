import Mic3.Emissions
import Mic3.RunHistory

/-! Execution capacity. The count that a claim makes under the capacity lock still bounds the running runs
when the claim commits, because only an owner of that lock starts a run. -/
namespace Mic3
open Relational Interleaving

/-- The write that an effect sends makes its run run. -/
def Effect.Starts : Effect → Prop
  | .commit (.outcome u) _ => u.Starts
  | _ => False

section Count
variable {p : Pid} {w w' : World} {e : Effect}

/-- An effect adds one running run when it starts one, and none otherwise. -/
theorem runningCount_apply (hal : e.Allowed w.tables) (ha : w.apply p e = some w') :
    w'.tables.runningCount ≤ w.tables.runningCount + 1 ∧
      (¬ e.Starts → w'.tables.runningCount ≤ w.tables.runningCount) := by
  rcases hal.count ha (fun r => r.status = .running) with
    h | ⟨row, event, entries, rfl, hfresh, h⟩ | ⟨u, entries, rfl, hu, h⟩
  · exact ⟨h.le.trans (Nat.le_succ _), fun _ => h.le⟩
  · simp only [hfresh.status, reduceCtorEq, decide_false, Bool.false_eq_true, if_false] at h
    exact ⟨h.le.trans (Nat.le_succ _), fun _ => h.le⟩
  · simp only [Tables.runningCount, Effect.Starts, UnitOfWork.Starts]
    refine ⟨?_, fun hstarts => ?_⟩
    · split at h <;> split at h <;> omega
    · by_cases hl : u.loaded.status = .running
      · simp only [hl, decide_true, if_true] at h
        split at h <;> omega
      · have hr : u.row.status ≠ .running := fun hr => hstarts ⟨hl, hr⟩
        simp only [hl, hr, decide_false, Bool.false_eq_true, if_false] at h
        omega

end Count

section Programs
variable {x : External} {p q : Pid} {w w' : World} {i : Input} {e : Effect} {l l' : Proc}

/-- Only a claim starts a run. -/
theorem Proc.starts (hs : l.next x p w i = (e, l')) (hk : l.Knows w.tables) (h : e.Starts) :
    ∃ worker u started, l = .claim worker (.commit (some u) started) := by
  cases e with
  | commit change entries =>
    cases Proc.commits hs rfl with
    | claim worker u started =>
      cases u with
      | none => exact h.elim
      | some u => exact ⟨worker, u, started, rfl⟩
    | accept | handle => exact absurd h hk.2
    | finish => exact absurd h hk.2
    | saveUid => exact absurd h Reconcile.savedUid_not_starts
    | submit | register | publish => exact h.elim
    | reject topic location rejection message => cases message <;> exact h.elim
  | _ => exact h.elim

/-- From its count on, a claim knows that another run fits. -/
def ClaimNext.Fits (capacity : ℕ) (t : Tables) : Pc → Prop
  | .candidate | .lockRelease .. | .lockRun .. | .loadRelease .. | .commit (some _) _ =>
    t.runningCount < capacity
  | _ => True

def Proc.Fits (t : Tables) : Proc → Prop
  | .claim worker pc => ClaimNext.Fits worker.capacity t pc
  | _ => True

/-- No step adds a running run without the capacity lock. -/
def capacity : Contract Pid World Proc where
  inv := fun _ => True
  assert := fun _ l w => l.Fits w.tables
  guarantee := fun p w w' => w'.tables.runningCount ≤ w.tables.runningCount ∨
    w.pg.locks.owner (.advisory capacityLock) = some p

theorem ClaimNext.fits_step {worker : Worker} {pc : ClaimNext.Pc}
    {r : Progress ClaimNext.Pc (Option UUID)} (hs : step worker w i pc = (e, r))
    (hk : ClaimNext.Fits worker.capacity w.tables pc) (ha : w.apply p e = some w') :
    r.All (ClaimNext.Fits worker.capacity w'.tables) := by
  have hsame (hc : e.commits = false) : w'.tables = w.tables := tables_apply hc ha
  rcases step_cases hs with ⟨rfl, err, rfl⟩ | hc
  · trivial
  cases pc with
  | lockCapacity =>
    obtain ⟨rfl, rfl⟩ := hc
    trivial
  | count =>
    obtain ⟨rfl, rfl | ⟨hcount, rfl⟩⟩ := hc
    · trivial
    · exact hsame rfl ▸ hcount
  | candidate =>
    obtain ⟨rfl, rfl | ⟨run, -, rfl⟩⟩ := hc
    · trivial
    · exact hsame rfl ▸ hk
  | lockRelease runId releaseId =>
    obtain ⟨release, -, rfl, rfl⟩ := hc
    exact hsame rfl ▸ hk
  | lockRun runId release =>
    obtain ⟨row, -, rfl, rfl | ⟨-, -, rfl⟩⟩ := hc
    · trivial
    · exact hsame rfl ▸ hk
  | loadRelease release row =>
    obtain ⟨pc', hd, rfl, rfl⟩ := hc
    obtain ⟨definition, -, ⟨-, rfl⟩ | ⟨-, rfl⟩⟩ := decide_ok hd <;> exact hsame rfl ▸ hk
  | commit u started =>
    obtain ⟨rfl, rfl⟩ := hc
    trivial

theorem Proc.fits_step (hs : l.next x p w i = (e, l')) (hk : l.Fits w.tables)
    (ha : w.apply p e = some w') : l'.Fits w'.tables := by
  cases l with
  | idle | unwinding => obtain ⟨rfl, rfl⟩ := Prod.mk.inj hs; trivial
  | claim worker pc =>
    obtain ⟨rfl, rfl⟩ := Prod.mk.inj hs
    exact (ClaimNext.fits_step rfl hk ha).proc (Q := fun l => l.Fits w'.tables) (fun _ h => h) trivial
  | submit | register | accept | reconcile | publish | consume =>
    obtain ⟨rfl, rfl⟩ := Prod.mk.inj hs
    exact (Progress.all_true _).proc (Q := fun l => l.Fits w'.tables) (fun _ _ => trivial) trivial

/-- What another process does under its own locks leaves room for the run of a claim. -/
theorem Proc.Fits.stable (hk : l.Fits w.tables) (hl : Holding q l w) (hne : p ≠ q)
    (hg : capacity.guarantee p w w') : l.Fits w'.tables := by
  cases l with
  | claim worker pc =>
    have hle (hheld : Hold.lock (.advisory capacityLock) ∈ ClaimNext.holds pc) :
        w'.tables.runningCount ≤ w.tables.runningCount := by
      refine hg.resolve_right fun howner => ?_
      have hq : w.pg.locks.owner (.advisory capacityLock) = some q := hl.valid _ hheld
      exact hne (Option.some.inj (howner.symm.trans hq))
    cases pc with
    | lockCapacity | count => trivial
    | candidate | lockRelease | lockRun | loadRelease =>
      exact (hle (by simp [ClaimNext.holds])).trans_lt hk
    | commit u started =>
      cases u with
      | none => trivial
      | some u => exact (hle (by simp [ClaimNext.holds])).trans_lt hk
  | _ => trivial

end Programs

theorem capacity_layer (x : External) : Layer capacity (runHistory.both holding) x where
  start := fun _ task _ => by cases task <;> trivial
  failing := by
    intro _ l _
    cases l with
    | reconcile worker runId pc => cases pc <;> trivial
    | _ => trivial
  refl := fun _ _ => .inl le_rfl
  step := by
    intro p w i l e l' w' hs ha _ hl _ _ hk
    obtain ⟨hal, -⟩ := Proc.knows_step hs hl.1 hl.2 ha
    refine ⟨trivial, Proc.fits_step hs hk ha, ?_⟩
    by_cases h : e.Starts
    · obtain ⟨worker, u, started, rfl⟩ := Proc.starts hs hl.1 h
      have howner : (Hold.lock (.advisory capacityLock)).Valid p w :=
        hl.2.valid _ (by simp [Proc.holds, ClaimNext.holds])
      exact .inr howner
    · exact .inl ((runningCount_apply hal ha).2 h)

theorem capacity_proof (x : External) :
    capacity.Proof (runHistory.both holding) (platform x) fun _ _ => True where
  act := by
    intro p a w l w' l' _ ha hinv hl hg hc hk
    exact (capacity_layer x).act (fun _ _ _ => ⟨trivial, .of_nothing rfl rfl⟩) ha hinv hl hg hc hk
  stable := by
    intro p q l w w' hne _ hl _ hg _ hk
    exact hk.stable hl.2 hne hg
  env := by
    intro ev w w' _ he _ _
    obtain ⟨hruns, -⟩ := World.event_tables he
    have hcount : w'.tables.runningCount ≤ w.tables.runningCount := by
      rw [Tables.runningCount, Tables.runningCount, hruns]
    exact ⟨trivial, fun q l hl hk => hk.stable (p := q + 1) hl.2 (Nat.succ_ne_self q) (.inl hcount)⟩

theorem capacity_established (x : External) :
    (capacity.both (runHistory.both holding)).Established (platform x) (fun _ _ => True) initial :=
  (capacity_proof x).established (runHistory_established x) ⟨trivial, fun _ => trivial⟩

section Runs
variable {x : External} {c c' : Config Pid World Proc}

/-- A step adds no running run, or it is the commit of a claim that starts one. -/
theorem Reached.runningCount_step (h : Reached x c) {l : Label Pid Action External.Event}
    (hs : (platform x).step c l = some c') :
    c'.shared.tables.runningCount ≤ c.shared.tables.runningCount ∨
      c'.shared.tables.runningCount ≤ c.shared.tables.runningCount + 1 ∧
        ∃ p a worker u started, l = .act p a ∧ c.procs p = .claim worker (.commit (some u) started) := by
  have hsame {t t' : Tables} (ht : t'.runs = t.runs) : t'.runningCount ≤ t.runningCount := by
    rw [Tables.runningCount, Tables.runningCount, ht]
  cases l with
  | env ev =>
    obtain ⟨w, he, rfl⟩ := Option.map_eq_some_iff.mp hs
    exact .inl (hsame (World.event_tables he).1)
  | act p a =>
    obtain ⟨⟨w, l⟩, ha, rfl⟩ := Option.map_eq_some_iff.mp hs
    obtain ⟨hknows, hheld⟩ := ((runHistory_established x).holds c h).2 p
    rcases platformAct_effect ha with rfl | rfl | ⟨i, hw⟩
    · exact .inl le_rfl
    · exact .inl le_rfl
    · obtain ⟨hal, -⟩ := Proc.knows_step rfl hknows hheld hw
      obtain ⟨hsucc, hle⟩ := runningCount_apply hal hw
      by_cases hstarts : ((c.procs p).next x p c.shared i).1.Starts
      · obtain ⟨worker, u, started, hp⟩ := Proc.starts rfl hknows hstarts
        exact .inr ⟨hsucc, p, a, worker, u, started, rfl, hp⟩
      · exact .inl (hle hstarts)

/-- While a claim that starts a run commits, the run fits. -/
theorem Reached.claim_fits (h : Reached x c) {p : Pid} {worker : Worker} {u : UnitOfWork}
    {started : Option UUID} (hp : c.procs p = .claim worker (.commit (some u) started)) :
    c.shared.tables.runningCount < worker.capacity := by
  have hk := (((capacity_established x).holds c h).2 p).1
  rw [hp] at hk
  exact hk

theorem claim_within_capacity (h : Reached x c) {p : Pid} {worker : Worker} {u : UnitOfWork}
    {started : Option UUID} (hp : c.procs p = .claim worker (.commit (some u) started))
    {a : Action} (hs : (platform x).step c (.act p a) = some c') :
    c'.shared.tables.runningCount ≤ worker.capacity := by
  have hfits := h.claim_fits hp
  rcases h.runningCount_step hs with hle | ⟨hle, -⟩ <;> omega

/-- All claims are made with capacity `k`. -/
def ClaimsWith (k : ℕ) (_ : World) : Label Pid Action External.Event → Prop
  | .act _ (.start (.claim worker)) => worker.capacity = k
  | _ => True

/-- A process that claims does so with capacity `k`. -/
def Proc.ClaimsWith (k : ℕ) : Proc → Prop
  | .claim worker _ => worker.capacity = k
  | _ => True

theorem claims_with {k : ℕ} (h : Reachable (platform x) (ClaimsWith k) initial c) (p : Pid) :
    (c.procs p).ClaimsWith k := by
  have hstarts : Reachable (platform x)
      (Starts fun task => ∀ worker, task = .claim worker → worker.capacity = k) initial c := by
    refine h.mono fun w l hl => ?_
    cases l with
    | env ev => trivial
    | act q a =>
      cases a with
      | start task =>
        intro worker htask
        subst htask
        exact hl
      | _ => trivial
  have hall := started hstarts p
  cases hp : c.procs p with
  | claim worker pc => exact hall (.claim worker) (by rw [hp]; rfl) worker rfl
  | _ => trivial

/-- With one capacity for all workers, no reachable state has more running runs. -/
theorem running_within_capacity {k : ℕ} (h : Reachable (platform x) (ClaimsWith k) initial c) :
    c.shared.tables.runningCount ≤ k := by
  refine h.invariant (fun c => c.shared.tables.runningCount ≤ k) (Nat.zero_le k) ?_
  intro c c' l hr hle _ hs
  have hreached : Reached x c := hr.mono fun _ _ _ => trivial
  rcases hreached.runningCount_step hs with hstep | ⟨hstep, p, a, worker, u, started, rfl, hp⟩
  · exact hstep.trans hle
  · have hcapacity : (c.procs p).ClaimsWith k := claims_with hr p
    rw [hp] at hcapacity
    exact hstep.trans (hcapacity ▸ hreached.claim_fits hp)

/-- Execution capacity is never exceeded: not by a claim that starts a run, whatever the others' capacities
are, and nowhere when all of them are the same. -/
theorem capacity_never_exceeded (x : External) :
    (∀ c c' p worker u started a, Reached x c → c.procs p = .claim worker (.commit (some u) started) →
      (platform x).step c (.act p a) = some c' → c'.shared.tables.runningCount ≤ worker.capacity) ∧
    ∀ k c, Reachable (platform x) (ClaimsWith k) initial c → c.shared.tables.runningCount ≤ k :=
  ⟨fun _ _ _ _ _ _ _ h hp hs => claim_within_capacity h hp hs, fun _ _ h => running_within_capacity h⟩

/-- Two claims fill a capacity of 2, and a third one of 3. -/
theorem capacity_never_exceeded_demo :
    (∃ c c' : Config Pid World Proc, Reached Demo.external c ∧
      (platform Demo.external).step c (.act 0 (.run (Demo.input 0))) = some c' ∧ c'.shared.tables.runningCount = 3 ∧
      c'.shared.tables.runningCount ≤ (Demo.workerOf 3).capacity) ∧
    ∃ c : Config Pid World Proc, c.shared.tables.runningCount = 2 ∧ c.shared.tables.runningCount ≤ 2 := by
  obtain ⟨c₂, hc₂, htwo, hrest⟩ :=
    System.passes_cons (System.passes_join (System.passes_join (System.passes_join Demo.claims_pass)))
  obtain ⟨c, hc, hstarts, hrest⟩ := System.passes_cons (System.passes_join hrest)
  obtain ⟨c', hlast, hthree, -⟩ := System.passes_cons hrest
  obtain ⟨u, hp⟩ := Demo.startsRun_iff hstarts
  have hreached : Reached Demo.external c := (Demo.reached hc₂).trans (reachable_of_run (fun _ _ _ => trivial) hc)
  have hstep : (platform Demo.external).step c (.act 0 (.run (Demo.input 0))) = some c' := by
    obtain ⟨d, hs, hd⟩ := Option.bind_eq_some_iff.mp hlast
    obtain rfl : d = c' := Option.some.inj hd
    exact hs
  refine ⟨⟨c, c', hreached, hstep, (Demo.runningAre_iff hthree).2, ?_⟩, c₂, (Demo.runningAre_iff htwo).2, ?_⟩
  · exact (capacity_never_exceeded Demo.external).1 c c' 0 _ u _ _ hreached hp hstep
  · refine (capacity_never_exceeded Demo.external).2 2 c₂ (reachable_of_run (fun w l hl => ?_) hc₂)
    -- Both claims are made with capacity 2.
    cases l with
    | env event => trivial
    | act p a =>
      cases a with
      | start task =>
        cases task with
        | claim worker =>
          have hworker : worker = Demo.workerOf 2 := by
            simp [Demo.queueing, Demo.runs, Demo.submits, Demo.claimTurns] at hl
            exact hl.2
          rw [hworker]
          exact rfl
        | _ => trivial
      | _ => trivial

end Runs
end Mic3
