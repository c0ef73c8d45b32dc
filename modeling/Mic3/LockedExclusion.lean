import Mic3.LockedVisits

/-! What the lock of a run is for: at most one record of it over a connection that is there, no write that is committed
without the lock, none that a visit leaves behind, and no lock that is left held, unless a statement of `locked` itself
fails over a connection that stays. -/
namespace Mic3
open Relational Interleaving

/-- The body has ended, whichever way it did. -/
def Locked.pastBody (l : Locked) : Bool :=
  match l.pc with
  | .cleanup | .driverRolledBack | .unlock | .unlocked | .close => true
  | .acquire | .acquired _ | .body _ | .rollback _ _ => false

theorem Locked.not_pastBody_of_body {l : Locked} {stage : Stage} (hpc : l.pc = .body stage) : l.pastBody = false := by
  unfold pastBody
  rw [hpc]

/-- What follows the body is not the body again. -/
theorem Locked.pastBody_step {p : ℕ} {l : Locked} {a : LockAction} {server server' : LockServer} {c : Connection} {pc : Pc}
    (h : l.pastBody = true) (hs : l.step p server a = some (server', c, pc)) :
    ({ l with connection := c, pc := pc } : Locked).pastBody = true := by
  cases a with
  | enter runId session => contradiction
  | run answer =>
    cases hpc : l.pc with
    | acquire | acquired _ | body _ | rollback _ _ =>
      unfold pastBody at h
      rw [hpc] at h
      contradiction
    | cleanup =>
      simp only [step, hpc] at hs
      split at hs
      · cases hs
        rfl
      · split at hs
        all_goals
          cases hs
          rfl
    | driverRolledBack | unlock =>
      simp only [step, hpc] at hs
      split at hs
      all_goals
        cases hs
        rfl
    | unlocked =>
      simp only [step, hpc] at hs
      cases hs
      rfl
    | close =>
      simp only [step, hpc] at hs
      contradiction
  | execute _ _ | commit _ _ | proceed _ | raise _ =>
    cases hpc : l.pc with
    | body stage => exact absurd (h.symm.trans (not_pastBody_of_body hpc)) (by decide)
    | acquire | acquired _ | rollback _ _ | cleanup | driverRolledBack | unlock | unlocked | close =>
      simp only [step, hpc] at hs
      contradiction

namespace LockConfig
variable {c c' : LockConfig} {p n : ℕ} {l : Locked}

/-- A visit that was, and that has left its body. -/
def Ended (c : LockConfig) (p n : ℕ) : Prop :=
  n < (c.procs p).visits ∧ ∀ l, c.visiting p = some l → l.visit = n → l.pastBody = true

/-- The commit of a block in the body of a visit, whose session still holds the lock of the run; what it writes is of
this visit. -/
structure Commits (c : LockConfig) (p : ℕ) (l : Locked) (entry : Committed ℤ RunWrite) : Prop where
  visiting : c.visiting p = some l
  body : ∃ stage, l.pc = .body stage
  session : entry.session = l.connection.session
  alive : (c.sessionOf l).alive = true
  locked : 0 < entry.locks l.key
  writes : ∀ write ∈ entry.writes, write = ⟨p, l.visit, l.runId⟩

/-- What a step adds to the log. -/
theorem Separate.step_log (h : c.Separate False) {label : Label ℕ LockAction ℕ} (hs : lockedRuns.step c label = some c') :
    c'.shared.server.log = c.shared.server.log ∨ ∃ entry, c'.shared.server.log = entry :: c.shared.server.log ∧
      (entry.writes = [] ∨ ∃ p l, (∃ a, label = .act p a) ∧ c.Commits p l entry) := by
  cases label with
  | act p a =>
    obtain ⟨⟨w, u⟩, hact, rfl⟩ := Option.map_eq_some_iff.mp hs
    rcases lockedRuns_cases hact with
      ⟨-, runId, rfl, -⟩ | ⟨-, runId, s, -, rfl, -⟩ | ⟨l, -, -, -, ⟨-, rfl⟩ | ⟨-, ⟨-, rfl⟩ | rfl | rfl⟩⟩ |
        ⟨l, server, connection, pc, hl, hstep, rfl, rfl⟩
    · exact .inl rfl
    · exact .inl rfl
    · exact .inl rfl
    · exact .inl rfl
    · exact .inl rfl
    · exact .inl rfl
    · have hmoves := Locked.step_moves h.wellFormed False.elim (h.visits p l hl).2.2.2 hstep
      refine hmoves.logs.imp id ?_
      rintro ⟨entry, hlog, hwrites⟩
      refine ⟨entry, hlog, hwrites.imp id ?_⟩
      rintro ⟨hbody, hsession, halive, hlocked, hmine⟩
      rw [hsession] at halive
      exact ⟨p, l, ⟨a, rfl⟩, hl, hbody, hsession, halive, hlocked, hmine⟩
  | env s =>
    obtain ⟨w, hdrop, rfl⟩ := Option.map_eq_some_iff.mp hs
    change (if s < _ then _ else none) = some w at hdrop
    split at hdrop
    · cases hdrop
      exact .inl rfl
    · contradiction

/-- A visit does not begin again. -/
theorem Ended.step (h : c.Ended p n) {label : Label ℕ LockAction ℕ} (hs : lockedRuns.step c label = some c') :
    c'.Ended p n := by
  obtain ⟨hvisits, hover⟩ := h
  cases label with
  | act q a =>
    obtain ⟨⟨w, u⟩, hact, rfl⟩ := Option.map_eq_some_iff.mp hs
    change Ended (c.after q w u) p n
    by_cases hp : p = q
    · subst hp
      unfold Ended
      rw [procs_self, visiting_self]
      rcases lockedRuns_cases hact with
        ⟨-, runId, -, rfl⟩ | ⟨-, runId, s, -, -, rfl⟩ | ⟨l, -, -, rfl, -⟩ | ⟨l, server, connection, pc, hl, hstep, -, rfl⟩
      · refine ⟨Nat.lt_succ_of_lt hvisits, fun l hl hn => ?_⟩
        cases hl
        exact absurd hn (ne_of_gt hvisits)
      · refine ⟨Nat.lt_succ_of_lt hvisits, fun l hl hn => ?_⟩
        cases hl
        exact absurd hn (ne_of_gt hvisits)
      · exact ⟨hvisits, fun l hl => by cases hl⟩
      · refine ⟨hvisits, fun m hm hn => ?_⟩
        cases hm
        exact Locked.pastBody_step (hover l hl hn) hstep
    · unfold Ended
      rw [procs_other hp, visiting_other hp]
      exact ⟨hvisits, hover⟩
  | env s =>
    obtain ⟨w, -, rfl⟩ := Option.map_eq_some_iff.mp hs
    exact ⟨hvisits, hover⟩

/-- No writes of a visit that has ended are committed later. -/
theorem Ended.log (h : c.Separate False) (hended : c.Ended p n) (hr : Reachable lockedRuns (fun _ _ => True) c c') :
    c'.Separate False ∧ c'.Ended p n ∧ ∃ later, c'.shared.server.log = later ++ c.shared.server.log ∧
      ∀ entry ∈ later, ∀ write ∈ entry.writes, ¬ (write.worker = p ∧ write.visit = n) := by
  induction hr with
  | refl => exact ⟨h, hended, [], rfl, fun _ he => absurd he List.not_mem_nil⟩
  | @step d d' label _ _ hs ih =>
    obtain ⟨hd, hend, later, hlog, hnone⟩ := ih
    refine ⟨hd.step False.elim hs, hend.step hs, ?_⟩
    rcases hd.step_log hs with he | ⟨entry, he, hentry⟩
    · exact ⟨later, he.trans hlog, hnone⟩
    · refine ⟨entry :: later, by rw [he, hlog, List.cons_append], ?_⟩
      intro e hin
      rcases List.mem_cons.mp hin with rfl | hin
      · rcases hentry with hempty | ⟨q, l, -, hcommits⟩
        · intro write hwrite
          rw [hempty] at hwrite
          contradiction
        · -- Only a body commits, and that of this visit has ended.
          rintro write hwrite ⟨hworker, hvisit⟩
          obtain rfl := hcommits.writes write hwrite
          obtain rfl : q = p := hworker
          obtain ⟨stage, hstage⟩ := hcommits.body
          exact absurd ((hend.2 l hcommits.visiting hvisit).symm.trans (Locked.not_pastBody_of_body hstage)) (by decide)
      · exact hnone e hin

/-- Where no lock was stranded, whoever holds a lock is in a visit of it. -/
theorem Separate.holder (h : c.Separate True) {s : ℕ} {k : ℤ} (hk : 0 < (c.shared.server.session s).locks k) :
    ∃ p l, c.visiting p = some l ∧ l.connection.session = s ∧ l.key = k := by
  have halive := h.wellFormed.alive_of_locked hk
  rcases h.owned s halive with hpool | ⟨p, l, hl, rfl⟩
  · exact absurd ((h.pool s hpool).2.2 trivial k) (ne_of_gt hk)
  · exact ⟨p, l, hl, rfl, ((h.visits p l hl).2.2.2.key trivial halive hk).symm⟩

/-- Two records of one run are not both over connections that are there. -/
theorem Separate.exclusive (h : c.Separate False) {q : ℕ} {m : Locked} (hl : c.visiting p = some l)
    (hm : c.visiting q = some m) (hrecord : l.holdsRecord = true) (hrecord' : m.holdsRecord = true)
    (hkey : l.key = m.key) (halive : (c.sessionOf l).alive = true) (halive' : (c.sessionOf m).alive = true) : p = q := by
  have hheld {r : ℕ} {n : Locked} (hn : c.visiting r = some n) (hr : n.holdsRecord = true)
      (ha : (c.sessionOf n).alive = true) : 0 < (c.sessionOf n).locks n.key :=
    ((h.visits r n hn).2.2.2.holdsRecord hr ha).1
  have hsame := h.wellFormed.exclusive _ _ l.key (hheld hl hrecord halive) (hkey ▸ hheld hm hrecord' halive')
  by_contra hne
  exact h.apart p q l m hl hm hne hsame

end LockConfig

/-- `locked` over any number of workers: who may hold the record, what is committed under the lock, what is never
committed, and where a lock may be while none was stranded. -/
theorem locked_excludes {c : LockConfig} (h : Reachable lockedRuns (fun _ _ => True) LockConfig.start c) :
    (∀ p q l m, c.visiting p = some l → c.visiting q = some m → l.holdsRecord = true → m.holdsRecord = true →
      l.key = m.key → (c.sessionOf l).alive = true → (c.sessionOf m).alive = true → p = q) ∧
    (∀ label c', lockedRuns.step c label = some c' → c'.shared.server.log = c.shared.server.log ∨
      ∃ entry, c'.shared.server.log = entry :: c.shared.server.log ∧
        (entry.writes = [] ∨ ∃ p l, (∃ a, label = .act p a) ∧ c.Commits p l entry)) ∧
    (∀ p n c', c.Ended p n → Reachable lockedRuns (fun _ _ => True) c c' →
      ∃ later, c'.shared.server.log = later ++ c.shared.server.log ∧
        ∀ entry ∈ later, ∀ write ∈ entry.writes, ¬ (write.worker = p ∧ write.visit = n)) ∧
    (Path lockedRuns LockConfig.Keeps LockConfig.start c → ∀ s k, 0 < (c.shared.server.session s).locks k →
      ∃ p l, c.visiting p = some l ∧ l.connection.session = s ∧ l.key = k) := by
  have hseparate := LockConfig.separate_of_reachable h
  refine ⟨fun p q l m hl hm hrecord hrecord' hkey halive halive' => ?_, fun label c' hs => ?_, fun p n c' hended hr => ?_,
    fun hpath s k hk => ?_⟩
  · exact hseparate.exclusive hl hm hrecord hrecord' hkey halive halive'
  · exact hseparate.step_log hs
  · exact (hended.log hseparate hr).2.2
  · exact (LockConfig.separate_of_path hpath).holder hk

/-- A worker whose commit of the uid of a Job fails before it is sent, which leaves the driver's transaction open, and
that goes, while another one finds the run locked. -/
def savingSteps : List (Label ℕ LockAction ℕ) :=
  [.act 0 (.enter 7 none), .act 0 (.run .ok), .act 0 (.run .ok), .act 0 (.execute false .ok),
    .act 0 (.commit .ok (some .observe)), .act 1 (.enter 7 none), .act 1 (.run .ok), .act 1 (.run .ok),
    .act 0 (.proceed (some .save)), .act 0 (.execute true .ok), .act 0 (.commit .ok (some .finish)), .act 1 (.run .ok),
    .act 0 (.execute true .ok), .act 0 (.commit .unsent none), .act 0 (.run .ok), .act 0 (.run .ok), .act 0 (.run .ok),
    .act 0 (.run .ok), .act 0 (.run .ok), .act 0 (.run .ok)]

/-- No lock is stranded by this step. -/
def keepsLocks (c : LockConfig) : Label ℕ LockAction ℕ → Bool
  | .act p (.run answer) => (c.visiting p).all fun l => !l.strands answer
  | _ => true

theorem keepsLocks_iff {c : LockConfig} {label : Label ℕ LockAction ℕ} (h : keepsLocks c label = true) :
    c.Keeps label := by
  rintro p l answer rfl hl
  simp only [keepsLocks, hl, Option.all_some, Bool.not_eq_true'] at h
  exact h

theorem locked_excludes_saving : ∃ c : LockConfig, lockedRuns.run LockConfig.start savingSteps = some c ∧
    c.shared.server.log.map Committed.writes = [[], [⟨0, 0, 7⟩], [], [], []] ∧ c.visiting 0 = none ∧
    ∀ s k, 0 < (c.shared.server.session s).locks k → ∃ p l, c.visiting p = some l ∧ l.connection.session = s ∧ l.key = k := by
  have hlog : (lockedRuns.runWhere keepsLocks LockConfig.start savingSteps).map
      (fun c : LockConfig => (c.shared.server.log.map Committed.writes, (c.visiting 0).isNone)) =
      some ([[], [⟨0, 0, 7⟩], [], [], []], true) := rfl
  obtain ⟨c, hrun, hc⟩ := Option.map_eq_some_iff.mp hlog
  obtain ⟨hwrites, hgone⟩ := Prod.mk.inj hc
  have hreached := reachable_of_run (fun _ _ _ => trivial) (run_of_runWhere hrun)
  exact ⟨c, run_of_runWhere hrun, hwrites, Option.isNone_iff_eq_none.mp hgone,
    (locked_excludes hreached).2.2.2 (path_of_runWhere (fun _ _ => keepsLocks_iff) hrun)⟩

/-- The server loses the session of one worker in its body, and another one is given the lock. -/
def lostSteps : List (Label ℕ LockAction ℕ) :=
  [.act 0 (.enter 7 none), .act 0 (.run .ok), .act 0 (.run .ok), .env 0,
    .act 1 (.enter 7 none), .act 1 (.run .ok), .act 1 (.run .ok)]

/-- The lock is taken, the commit after it fails at the server, and the connection goes back to the pool. -/
def strandedSteps : List (Label ℕ LockAction ℕ) :=
  [.act 0 (.enter 7 none), .act 0 (.run .ok), .act 0 (.run (.error false)), .act 0 (.run .ok)]

theorem locked_twice : (¬ ∀ c : LockConfig, Reachable lockedRuns (fun _ _ => True) LockConfig.start c →
    ∀ p q l m, c.visiting p = some l → c.visiting q = some m → l.holdsRecord = true → m.holdsRecord = true →
      l.runId = m.runId → p = q) ∧
    ¬ ∀ c : LockConfig, Reachable lockedRuns (fun _ _ => True) LockConfig.start c →
      ∀ s k, 0 < (c.shared.server.session s).locks k →
        ∃ p l, c.visiting p = some l ∧ l.connection.session = s ∧ l.key = k := by
  constructor
  · intro h
    obtain ⟨c, hrun, l, m, hl, hm, hrecord, hrecord', hrun'⟩ : ∃ c : LockConfig, lockedRuns.run LockConfig.start lostSteps = some c ∧
        ∃ l m, c.visiting 0 = some l ∧ c.visiting 1 = some m ∧ l.holdsRecord = true ∧ m.holdsRecord = true ∧
          l.runId = m.runId := ⟨_, rfl, _, _, rfl, rfl, rfl, rfl, rfl⟩
    exact absurd (h c (reachable_of_run (fun _ _ _ => trivial) hrun) 0 1 l m hl hm hrecord hrecord' hrun') (by decide)
  · intro h
    obtain ⟨c, hrun, hheld, hgone⟩ : ∃ c : LockConfig, lockedRuns.run LockConfig.start strandedSteps = some c ∧
        0 < (c.shared.server.session 0).locks (runKey 7) ∧ c.visiting 0 = none := ⟨_, rfl, by decide, rfl⟩
    obtain ⟨p, l, hl, -⟩ := h c (reachable_of_run (fun _ _ _ => trivial) hrun) 0 (runKey 7) hheld
    by_cases hp : p = 0
    · rw [hp, hgone] at hl
      contradiction
    · -- Nobody else took a step.
      have hothers : ∀ label ∈ strandedSteps, ∀ a : LockAction, label ≠ .act p a := by
        intro label hlabel a he
        subst he
        simp [strandedSteps, hp] at hlabel
      have hwithout : Reachable lockedRuns (Elsewhere (fun _ _ => True) p) LockConfig.start c :=
        reachable_of_run (fun _ label hlabel => ⟨trivial, hothers label hlabel⟩) hrun
      unfold LockConfig.visiting at hl
      rw [hwithout.procs_eq] at hl
      contradiction

end Mic3
