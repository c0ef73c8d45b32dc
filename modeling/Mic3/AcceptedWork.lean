import Mic3.Serialization

/-! Every ongoing run keeps the configuration it was accepted with, in every run of the platform. -/
namespace Mic3
open Relational Interleaving

def configuration : Contract Pid World Proc := ⟨Configured, fun _ l w => l.Configures w.tables, Admits⟩

section Layer
variable {x : External} {p q : Pid} {w w' : World} {i : Input} {e : Effect} {l l' : Proc}

theorem SubmitRun.configures {call : SubmitRun} {pc : SubmitRun.Pc} {r : Progress SubmitRun.Pc UUID}
    (hs : call.step w i pc = (e, r)) (hk : Knows pc) : e.Configures p w := by
  rcases step_cases hs with ⟨rfl, -⟩ | hc
  · trivial
  cases pc with
  | getRelease => obtain ⟨s, -, rfl, -⟩ := hc; trivial
  | lockAdmission | countTotal | findUser | insertEvent => obtain ⟨rfl, -⟩ := hc; trivial
  | countOwned | insertRun => obtain ⟨-, rfl, -⟩ := hc; trivial
  | checkRelease => obtain ⟨-, rfl, -⟩ := hc; trivial
  | checkUser => obtain ⟨⟨user, rfl⟩ | rfl, -⟩ := hc <;> trivial
  | commit s row event =>
    obtain ⟨rfl, -⟩ := hc
    exact ⟨hk.1.acceptedAt, fun _ _ => by simp⟩

theorem PublishOutbox.configures {isoformat : Datetime → String} {publisher : Publisher}
    {pc : PublishOutbox.Pc} {r : Progress PublishOutbox.Pc ℕ}
    (hs : step isoformat publisher p w i pc = (e, r)) : e.Configures q w' := by
  rcases step_cases hs with ⟨rfl | rfl, -⟩ | hc
  · trivial
  · trivial
  cases pc with
  | select => obtain ⟨rfl, -⟩ := hc; trivial
  | lockRows => rcases hc with ⟨rfl, -⟩ | ⟨id, ids, -, ⟨rfl, -⟩ | ⟨rfl, -⟩⟩ <;> trivial
  | publish =>
    rcases hc with ⟨event, rest, -, -, rfl, -⟩ | ⟨-, rfl, -⟩
    · trivial
    · exact fun _ _ => by simp
  | confirm => obtain ⟨rfl, -⟩ := hc; trivial

theorem Proc.configures_step (hs : l.next x p w i = (e, l')) (hk : l.Configures w.tables)
    (hknows : l.Knows w.tables) (hl : Holding p l w) (hinv : Configured w) (hcons : w.tables.Consistent)
    (ha : w.apply p e = some w') : e.Configures p w ∧ l'.Configures w'.tables := by
  cases l with
  | idle | unwinding =>
    obtain ⟨rfl, rfl⟩ := Prod.mk.inj hs
    exact ⟨trivial, trivial⟩
  | submit call pc =>
    obtain ⟨rfl, rfl⟩ := Prod.mk.inj hs
    exact ⟨SubmitRun.configures rfl hknows, (Progress.all_true _).proc (Q := fun l => l.Configures w'.tables) (fun _ h => h) trivial⟩
  | register definition pc =>
    obtain ⟨rfl, rfl⟩ := Prod.mk.inj hs
    obtain ⟨hconf, hnext⟩ := Catalog.configures_step rfl hk hl.valid ha
    exact ⟨hconf, hnext.proc (Q := fun l => l.Configures w'.tables) (fun _ h => h) trivial⟩
  | accept runId pc =>
    obtain ⟨rfl, rfl⟩ := Prod.mk.inj hs
    obtain ⟨hconf, hnext⟩ := AcceptRun.configures_step rfl hk hknows hl.valid ha
    exact ⟨hconf, hnext.proc (Q := fun l => l.Configures w'.tables) (fun _ h => h) trivial⟩
  | claim worker pc =>
    obtain ⟨rfl, rfl⟩ := Prod.mk.inj hs
    obtain ⟨hconf, hnext⟩ := ClaimNext.configures_step rfl hk hknows hl.valid hinv ha
    exact ⟨hconf, hnext.proc (Q := fun l => l.Configures w'.tables) (fun _ h => h) trivial⟩
  | reconcile worker runId pc =>
    obtain ⟨rfl, rfl⟩ := Prod.mk.inj hs
    have hkey (hpc : pc ≠ .acquire) : w.pg.sessionLocks (runKey runId) = some p := by
      apply hl.session
      cases pc <;> first | rfl | exact absurd rfl hpc
    obtain ⟨hconf, hnext⟩ := Reconcile.configures_step rfl hk hkey hinv hcons ha
    exact ⟨hconf, hnext.proc (Q := fun l => l.Configures w'.tables) (fun _ h => h) trivial⟩
  | publish publisher pc =>
    obtain ⟨rfl, rfl⟩ := Prod.mk.inj hs
    exact ⟨PublishOutbox.configures rfl, (Progress.all_true _).proc (Q := fun l => l.Configures w'.tables) (fun _ h => h) trivial⟩
  | consume topic pc =>
    obtain ⟨rfl, rfl⟩ := Prod.mk.inj hs
    obtain ⟨hconf, hnext⟩ := Consumer.configures_step rfl hk hknows hl.valid ha
    exact ⟨hconf, hnext.proc (Q := fun l => l.Configures w'.tables) (fun _ h => h) trivial⟩

theorem configuration_layer (x : External) : Layer configuration (runHistory.both holding) x where
  start := fun _ task _ => by cases task <;> trivial
  failing := by
    intro _ l _
    cases l with
    | reconcile worker runId pc => cases pc <;> trivial
    | _ => trivial
  refl := fun _ w => .of_runs rfl fun _ hm => hm
  step := by
    intro p w i l e l' w' hs ha hbase hl _ hinv hk
    obtain ⟨hal, -⟩ := Proc.knows_step hs hl.1 hl.2 ha
    obtain ⟨hconf, hk'⟩ := Proc.configures_step hs hk hl.1 hl.2 hinv hbase.1 ha
    obtain ⟨hinv', hadmits⟩ := hconf.apply hal ha hinv
    exact ⟨hinv', hk', hadmits⟩

theorem Tables.Refers.advance {t t' : Tables} {runId releaseId : UUID} (h : t.Refers runId releaseId)
    (hadv : t.Advances t') (hc : t.Consistent) : t'.Refers runId releaseId := by
  obtain ⟨row, hrow, hid⟩ := h
  obtain ⟨row', hrow', hcont, -, -⟩ := hadv.run hc hrow
  exact ⟨row', hrow', hcont.modelReleaseId.trans hid⟩

/-- While the release is locked, no step of another process adds a run that the edit would have to keep. -/
theorem Tables.KeptBy.stable {loaded : ModelReleaseRow} {document : Json}
    (h : w.tables.KeptBy loaded document) (hheld : (Hold.release loaded).Valid q w)
    (hadmits : Admits p w w') (hne : p ≠ q) : w'.tables.KeptBy loaded document := by
  intro id row' invocation hrow' ho hid hruns
  rcases hadmits.ongoing id row' hrow' ho with howner | ⟨row, hrow, ho', hwork⟩
  · rw [hid, hheld.1] at howner
    exact absurd (Option.some.inj howner).symm hne
  · have hruns' : loaded.Runs row invocation := hruns.congr hwork.parameters.symm hwork.fingerprint.symm
    exact (h id row invocation hrow ho' (hwork.modelReleaseId.symm.trans hid) hruns').congr
      hwork.parameters hwork.fingerprint

/-- While the session lock is held, no step of another process ends the run. -/
theorem Tables.RunsAs.stable {runId : UUID} {row : Run} (h : w.tables.RunsAs runId row)
    (hkey : w.pg.sessionLocks (runKey runId) = some q) (hadmits : Admits p w w') (hne : p ≠ q)
    (hadv : w.tables.Advances w'.tables) (hc : w.tables.Consistent) : w'.tables.RunsAs runId row := by
  obtain ⟨row₁, hrow₁, hrun, hwork⟩ := h
  obtain ⟨row₂, hrow₂, hcont, -, -⟩ := hadv.run hc hrow₁
  have hwork₂ : row₂.SameWork row₁ :=
    ⟨hcont.modelReleaseId.symm, hcont.parameters.symm, hcont.fingerprint.symm⟩
  rcases hadmits.running runId row₁ row₂ hrow₁ hrun hrow₂ with hrun₂ | hother
  · exact ⟨row₂, hrow₂, hrun₂, hwork₂.trans hwork⟩
  · exact absurd (Option.some.inj (hother.symm.trans hkey)) hne

theorem Proc.Configures.stable (hk : l.Configures w.tables) (hl : Holding q l w) (hne : p ≠ q)
    (hadmits : Admits p w w') (hadv : w.tables.Advances w'.tables) (hc : w.tables.Consistent) :
    l.Configures w'.tables := by
  cases l with
  | register definition pc =>
    cases pc with
    | insertModel | lockModel => trivial
    | selectReleases | lockReleases | insertRelease | activeModes =>
      exact ⟨hk.1, fun hi => hadmits.models _ (hk.2 hi)⟩
    | commit r =>
      cases hr : r.release with
      | create row =>
        have hk' : row.modelId = r.model.id ∧ Catalog.ModelReady w.tables r.model r.inserted := by
          simpa only [Proc.Configures, Catalog.Configures, hr] using hk
        simp only [Proc.Configures, Catalog.Configures, hr]
        exact ⟨hk'.1, fun hi => hadmits.models _ (hk'.2 hi)⟩
      | edit loaded document =>
        have hk' : w.tables.KeptBy loaded document := by
          simpa only [Proc.Configures, Catalog.Configures, hr] using hk
        have hheld : (Hold.release loaded).Valid q w :=
          hl.valid _ (by simp [Proc.holds, Catalog.holds, hr])
        simpa only [Proc.Configures, Catalog.Configures, hr] using hk'.stable hheld hadmits hne
  | accept runId pc =>
    cases pc with
    | lockRelease | lockRun => exact Tables.Refers.advance hk hadv hc
    | _ => exact hk
  | claim worker pc =>
    cases pc with
    | lockRelease | lockRun => exact Tables.Refers.advance hk hadv hc
    | commit u started => cases u <;> exact hk
    | _ => exact hk
  | consume topic pc =>
    cases pc with
    | accept location runId pc =>
      cases pc with
      | lockRelease | lockRun => exact Tables.Refers.advance hk hadv hc
      | _ => exact hk
    | _ => exact hk
  | reconcile worker runId pc =>
    cases pc with
    | loadRelease row => exact Tables.RunsAs.stable hk (hl.session _ rfl) hadmits hne hadv hc
    | _ => exact hk
  | idle | unwinding | submit | publish => trivial

end Layer

theorem configuration_proof (x : External) :
    configuration.Proof (runHistory.both holding) (platform x) fun _ _ => True where
  act := by
    intro p a w l w' l' _ ha hinv hl hg hc hk
    exact (configuration_layer x).act (fun _ _ _ => ⟨trivial, .of_nothing rfl rfl⟩) ha hinv hl hg hc hk
  stable := by
    intro p q l w w' hne hbase hl hg hadmits _ hk
    exact hk.stable hl.2 hne hadmits hg.1 hbase.1
  env := by
    intro ev w w' _ he hbase hc
    obtain ⟨users, hpg⟩ := World.event_pg he
    have hhistory := World.event_history he
    have hruns : w'.tables.runs = w.tables.runs := by rw [World.tables, hpg]
    have hmodels : w'.tables.models = w.tables.models := by rw [World.tables, hpg]
    have hadv : w.tables.Advances w'.tables := .of_eq hruns (by rw [World.tables, hpg]) (by rw [World.tables, hpg])
    refine ⟨hc.of_eq hruns (by rw [World.tables, hpg]) hmodels (by simp [hhistory]), fun q l hl hk => ?_⟩
    -- What others do is a step of no process, so of one other than `q`.
    have hadmits : Admits (q + 1) w w' := .of_runs hruns fun _ hm => by rwa [hmodels]
    exact hk.stable hl.2 (Nat.succ_ne_self q) hadmits hadv hbase.1

theorem configuration_established (x : External) :
    (configuration.both (runHistory.both holding)).Established (platform x) (fun _ _ => True) initial :=
  (configuration_proof x).established (runHistory_established x)
    ⟨⟨fun _ _ h => (by cases h), fun _ _ h => (by cases h), fun _ _ h => (by cases h)⟩,
      fun _ => trivial⟩

section Runs
variable {x : External} {c : Config Pid World Proc}

theorem Reached.configured (h : Reached x c) : Configured c.shared :=
  ((configuration_established x).holds c h).1.1

theorem Reached.configures (h : Reached x c) (p : Pid) : (c.procs p).Configures c.shared.tables :=
  (((configuration_established x).holds c h).2 p).1

/-- Accepted work keeps its configuration: the definition its release has now matches the run's
fingerprint, and its mode has the invocation that the run was accepted with. So no claim refuses an
accepted run, and no reconcile call ends a run, because its definition changed. -/
theorem accepted_work_keeps_configuration (h : Reached x c) :
    (∀ row ∈ c.shared.tables.runs.rows, row.acceptedAt.isSome → row.status.active = true →
      ∃ release d invocation, c.shared.tables.releases.find? row.modelReleaseId = some release ∧
        loadReleaseDefinition c.shared.tables release = .ok d ∧
        matchesFingerprint d row.parameters row.fingerprint = .ok true ∧
        selectedInvocation d row.parameters = .ok invocation ∧
        ∀ other, Entry.accepted row.id other ∈ c.shared.history ↔ other = invocation) ∧
    (∀ p worker u started, c.procs p = .claim worker (.commit (some u) started) →
      u.row.status = .running) ∧
    ∀ p worker runId seen failureCode artifacts,
      c.procs p = .reconcile worker runId (.lockFinish seen failureCode artifacts) →
        failureCode ≠ some "execution_definition_changed" := by
  refine ⟨fun row hrow haccepted hactive => ?_, fun p worker u started hp => ?_, ?_⟩
  · obtain ⟨release, invocation, hf, hruns, hacc⟩ :=
      h.configured.ongoing row.id row (Table.find?_of_mem hrow) ⟨haccepted, hactive⟩
    obtain ⟨d, hload, hmatches, hselected⟩ := hruns.load (h.configured.models _ _ hf)
    exact ⟨release, d, invocation, hf, hload, hmatches, hselected, hacc⟩
  · have hk := h.configures p
    rw [hp] at hk
    exact hk.2.2
  · intro p worker runId seen failureCode artifacts hp
    have hk := h.configures p
    rw [hp] at hk
    exact hk

theorem accepted_work_keeps_configuration_demo : ∃ c r release, Demo.row c = some r ∧
    c.shared.tables.releases.find? r.modelReleaseId = some release ∧
    ∃ d, loadReleaseDefinition c.shared.tables release = .ok d ∧
      matchesFingerprint d r.parameters r.fingerprint = .ok true := by
  obtain ⟨c, r, hc, hr, hq, ha, -⟩ := Demo.accepted
  obtain ⟨release, d, -, hf, hd, hm, -⟩ := (accepted_work_keeps_configuration (Demo.reached hc)).1 r
    (Table.mem_of_find? hr) ha (by rw [hq]; rfl)
  exact ⟨c, r, release, hr, hf, d, hd, hm⟩

end Runs
end Mic3
