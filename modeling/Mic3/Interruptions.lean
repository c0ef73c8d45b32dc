import Mic3.Attempts

/-! A reconcile call that is interrupted anywhere before the commit that would end its run: it leaves the run
running, and at most the uid of the Job it saw. -/
namespace Mic3
open Relational Interleaving

/-- Whether the next statement is the commit that ends the run. -/
def Proc.finishes (id : UUID) : Proc → Bool
  | .reconcile _ runId (.finish ..) => runId = id
  | _ => false

/-- A step in which such a commit takes effect. -/
def Finishes (id : UUID) (c : Config Pid World Proc) : Label Pid Action External.Event → Prop
  | .act p (.run _) | .act p (.lost _) => (c.procs p).finishes id = true
  | _ => False

/-- Any steps of any processes, with reconcile calls of the run that end anywhere and anyhow, except for a
commit that ends the run. -/
abbrev Interrupted (x : External) (id : UUID) (c c' : Config Pid World Proc) : Prop :=
  Path (platform x) (fun c l => ¬ Finishes id c l) c c'

def Run.identified (uid : String) (row : Run) : Run := { row with jobUid := some uid }

/-- The tables with the uid in the run's row. -/
def Tables.recordUid (t : Tables) (id : UUID) (uid : String) : Tables :=
  { t with runs := t.runs.modify id (Run.identified uid) }

/-- A call is about to save this uid, which it saw, for the run. -/
def Saves (id : UUID) (row : Run) (uid : String) (c : Config Pid World Proc) : Prop :=
  ∃ p worker call observation, c.procs p = .reconcile worker id (.saveUid call observation row) ∧
    observation.uid = uid ∧ row.jobNamespace = some worker.namespace ∧ call.work.id = id ∧
    call.Saw c.shared worker uid

/-- The run's record with the uid of a Job, where it had none. -/
structure RunRecord.Identified (r r' : RunRecord) (uid : String) : Prop where
  none : r.row.jobUid = none
  eq : r' = { r with row := r.row.identified uid }

section Tables
variable {t t' : Tables} {id : UUID} {row : Run} {uid : String}

theorem Tables.recordUid_find? (h : t.runs.find? id = some row) :
    (t.recordUid id uid).runs.find? id = some (row.identified uid) := by
  have hkey (r : Run) : key (Run.identified uid r) = key r := rfl
  rw [recordUid, Table.find?_modify hkey, if_pos rfl, h]
  rfl

/-- Saving a uid that is the run's already, or for a run that has ended, writes nothing. -/
theorem savedUid_apply (hrow : t.runs.find? row.id = some row)
    (hu : row.jobUid = none ∨ row.jobUid = some uid)
    (h : (Change.outcome (Reconcile.savedUid row uid)).apply t = some t') :
    t' = t ∨ row.status = .running ∧ row.jobUid = none ∧ t' = t.recordUid row.id uid := by
  obtain ⟨artifacts, outbox, hartifacts, houtbox, rfl⟩ := Change.outcome_apply h
  rw [Reconcile.savedUid_loaded]
  by_cases hrun : row.status = .running
  · have hsaved : Reconcile.savedUid row uid = ⟨row, row.identified uid, [], []⟩ := if_pos hrun
    rw [hsaved] at hartifacts houtbox ⊢
    obtain rfl := Option.some.inj hartifacts
    obtain rfl := Option.some.inj houtbox
    have hflush : Run.flush row (row.identified uid) row = row.identified uid := by
      simp [Run.flush, Run.identified]
    rcases hu with hnone | hsame
    · exact .inr ⟨hrun, hnone, congrArg (fun runs => { t with runs }) (Table.modify_congr hrow hflush)⟩
    · have heq : row.identified uid = row := by rw [Run.identified, ← hsame]
      exact .inl (congrArg (fun runs => { t with runs }) (Table.modify_self hrow (hflush.trans heq)))
  · have hsaved : Reconcile.savedUid row uid = .clean row := if_neg hrun
    rw [hsaved] at hartifacts houtbox ⊢
    obtain rfl := Option.some.inj hartifacts
    obtain rfl := Option.some.inj houtbox
    exact .inl (congrArg (fun runs => { t with runs }) (Table.modify_self hrow (Run.flush_self row row)))

/-- A write that leaves a running run's row as it is adds nothing. -/
theorem Write.of_same {row' : Run} {artifacts : List RunArtifact} {events : List OutboxEvent}
    (h : Write row row' artifacts events) (hsame : row' = row) (hrun : row.status = .running) :
    artifacts = [] ∧ events = [] := by
  have hstatus := congrArg Run.status hsame
  cases h with
  | accept | saveUid => exact ⟨rfl, rfl⟩
  | start time ns hq => cases (hq.symm.trans hrun)
  | refuse | succeed | fail => cases (hstatus.trans hrun)

/-- A running run whose row stays gets no artifact and no event. -/
theorem Tables.Advances.kept (h : t.Advances t') (hrow : t.runs.find? id = some row)
    (hrow' : t'.runs.find? id = some row) (hrun : row.status = .running) : t'.record id row = t.record id row := by
  obtain ⟨row', hfound, hrecord⟩ := h id row hrow
  obtain rfl : row = row' := Option.some.inj (hrow'.symm.trans hfound)
  rcases hrecord with heq | hstep
  · exact heq
  · generalize hafter : t'.record id row = after at hstep
    obtain @⟨row', artifacts, events, hw⟩ := hstep
    obtain rfl : row' = row := (congrArg RunRecord.row hafter).symm
    obtain ⟨rfl, rfl⟩ := hw.of_same rfl hrun
    rfl

end Tables

section Steps
variable {x : External} {p : Pid} {w w' : World} {i : Input} {id : UUID} {row : Run}

/-- A statement of a reconcile call that does not end the run leaves the tables as they are, or saves the
uid that the call saw. -/
theorem reconcile_writes {worker : Worker} {pc : Reconcile.Pc}
    (hfinish : (Proc.reconcile worker id pc).finishes id = false)
    (hk : (Proc.reconcile worker id pc).Knows w.tables) (hl : Holding p (.reconcile worker id pc) w)
    (ha : w.apply p ((Proc.reconcile worker id pc).next x p w i).1 = some w') :
    w'.tables = w.tables ∨ ∃ call observation row, pc = .saveUid call observation row ∧
      w.tables.runs.find? id = some row ∧ row.status = .running ∧ row.jobUid = none ∧
      w'.tables = w.tables.recordUid id observation.uid := by
  generalize hs : (Proc.reconcile worker id pc).next x p w i = s at ha
  cases hcommit : s.1.commits with
  | false => exact .inl (tables_apply hcommit ha)
  | true =>
    obtain ⟨change, entries, he⟩ := s.1.commits_iff.mp hcommit
    rw [he] at ha
    obtain ⟨tables, ht, rfl⟩ := commit_apply ha
    cases Proc.commits (hs.trans (Prod.ext he rfl)) rfl with
    | saveUid worker runId call observation row hu =>
      have hheld : (Hold.run row).Valid p w := hl.valid _ (by simp [Proc.holds, Reconcile.holds])
      obtain ⟨-, -, rfl⟩ := hk
      rcases savedUid_apply hheld.2 hu ht with rfl | ⟨hrun, hnone, rfl⟩
      · exact .inl rfl
      · exact .inr ⟨call, observation, row, rfl, hheld.2, hrun, hnone, rfl⟩
    | finish worker runId seen u => simp [Proc.finishes] at hfinish

/-- Any other statement leaves a running run to its reconcile call. -/
theorem statement_keeps {l : Proc} (hfinish : l.finishes id = false) (hknows : l.Knows w.tables)
    (hconf : l.Configures w.tables) (hl : Holding p l w) (ha : w.apply p (l.next x p w i).1 = some w')
    (hrow : w.tables.runs.find? id = some row) (hrun : row.status = .running) :
    w'.tables.runs.find? id = some row ∨ ∃ worker call observation,
      l = .reconcile worker id (.saveUid call observation row) ∧ row.jobUid = none ∧
        w'.tables = w.tables.recordUid id observation.uid := by
  obtain ⟨hal, -⟩ := Proc.knows_step (x := x) (i := i) rfl hknows hl ha
  rcases hal.runs ha with hsame | ⟨row', event, entries, -, -, hins⟩ | ⟨u, entries, he, -, hcurrent, hfind⟩
  · exact .inl (hsame ▸ hrow)
  · exact .inl (Table.find?_insert_of_some hins hrow)
  by_cases hid : id = u.loaded.id
  · subst hid
    obtain rfl : u.loaded = row := Option.some.inj (hcurrent.symm.trans hrow)
    have hcommits : (l.next x p w i) = (.commit (.outcome u) entries, (l.next x p w i).2) := Prod.ext he rfl
    cases Proc.writes hcommits hknows hconf with
    | clean l u entries h => exact .inl ((hfind _).trans ((if_pos rfl).trans (congrArg _ h)))
    | queued l u entries h => cases (h.symm.trans hrun)
    | saveUid worker call observation row hu =>
      rw [Reconcile.savedUid_loaded] at hrow hrun ⊢
      rcases reconcile_writes hfinish hknows hl ha with hsame | ⟨call', observation', row', hpc, -, -, hnone, hw⟩
      · exact .inl (hsame ▸ hrow)
      · obtain ⟨rfl, rfl, rfl⟩ := Reconcile.Pc.saveUid.inj hpc
        exact .inr ⟨worker, call, observation, rfl, hnone, hw⟩
    | finish worker seen u => simp [Proc.finishes] at hfinish
  · exact .inl ((hfind id).trans ((if_neg hid).trans hrow))

end Steps

section Runs
variable {x : External} {c₀ c c' : Config Pid World Proc} {id : UUID} {row : Run}

theorem Reached.underway (h : Reached x c) (p : Pid) : (c.procs p).Underway c.shared :=
  (((underway_established x).holds c h).2 p).1

/-- A step that does not end a running run leaves its record, or saves the uid that its call saw. -/
theorem interrupted_step (h : Reached x c) (hrow : c.shared.tables.runs.find? id = some row)
    (hrun : row.status = .running) {l : Label Pid Action External.Event} (hne : ¬ Finishes id c l)
    (hs : (platform x).step c l = some c') :
    (c'.shared.tables.runs.find? id = some row ∧
        c'.shared.tables.record id row = c.shared.tables.record id row) ∨
      ∃ uid, Saves id row uid c ∧ c'.shared.tables.runs.find? id = some (row.identified uid) ∧
        (c.shared.tables.record id row).Identified (c'.shared.tables.record id (row.identified uid)) uid := by
  have hkept (hrow' : c'.shared.tables.runs.find? id = some row) :
      c'.shared.tables.record id row = c.shared.tables.record id row :=
    (h.advances hs).kept hrow hrow' hrun
  have hsame (ht : c'.shared.tables = c.shared.tables) : c'.shared.tables.runs.find? id = some row :=
    ht ▸ hrow
  cases l with
  | env ev =>
    obtain ⟨w, he, rfl⟩ := Option.map_eq_some_iff.mp hs
    have hrow' : w.tables.runs.find? id = some row := (World.event_tables he).1 ▸ hrow
    exact .inl ⟨hrow', hkept hrow'⟩
  | act p a =>
    obtain ⟨⟨w, l⟩, ha, rfl⟩ := Option.map_eq_some_iff.mp hs
    obtain ⟨hunder, -, -, hconf, hknows, hl⟩ := ((underway_established x).holds c h).2 p
    -- What a statement does, whether or not its caller hears of it.
    have hstatement (i : Input) (hfinish : ¬ (c.procs p).finishes id = true)
        (hw : c.shared.apply p ((c.procs p).next x p c.shared i).1 = some w) :
        (w.tables.runs.find? id = some row ∧ w.tables.record id row = c.shared.tables.record id row) ∨
          ∃ uid, Saves id row uid c ∧ w.tables.runs.find? id = some (row.identified uid) ∧
            (c.shared.tables.record id row).Identified (w.tables.record id (row.identified uid)) uid := by
      rcases statement_keeps (Bool.eq_false_iff.mpr hfinish) hknows hconf hl hw hrow hrun with
        hrow' | ⟨worker, call, observation, hp, hnone, htables⟩
      · exact .inl ⟨hrow', hkept hrow'⟩
      · rw [hp] at hunder
        obtain ⟨⟨hid, row', hrow', -, -, hns⟩, hsaw⟩ := hunder
        obtain rfl : row = row' := Option.some.inj (hrow.symm.trans hrow')
        refine .inr ⟨observation.uid, ⟨p, worker, call, observation, hp, rfl, hns, hid, hsaw⟩, ?_, hnone, ?_⟩
        · rw [htables]
          exact Tables.recordUid_find? hrow
        · rw [htables]
          rfl
    cases a with
    | start task =>
      obtain ⟨-, h'⟩ := Option.ite_none_right_eq_some.mp ha
      obtain ⟨rfl, -⟩ := Prod.mk.inj (Option.some.inj h')
      exact .inl ⟨hrow, rfl⟩
    | run i | lost i =>
      obtain ⟨w₁, hw, h'⟩ := Option.map_eq_some_iff.mp ha
      obtain ⟨rfl, -⟩ := Prod.mk.inj h'
      exact hstatement i hne hw
    | fail =>
      obtain ⟨rfl, -⟩ := Prod.mk.inj (Option.some.inj ha)
      exact .inl ⟨hrow, rfl⟩
    | crash =>
      obtain ⟨rfl, -⟩ := Prod.mk.inj (Option.some.inj ha)
      exact .inl ⟨hsame rfl, hkept (hsame rfl)⟩

/-- What the interruptions leave of a running run: all of it, or all of it and the uid that one of its calls
saw and saved. -/
inductive Survives (x : External) (id : UUID) (row : Run) (c₀ c : Config Pid World Proc) : Prop
  | same (hrow : c.shared.tables.runs.find? id = some row)
    (hrecord : c.shared.tables.record id row = c₀.shared.tables.record id row)
  | identified (uid : String) (c₁ : Config Pid World Proc) (hbefore : Interrupted x id c₀ c₁)
    (hsaves : Saves id row uid c₁) (hafter : Interrupted x id c₁ c)
    (hrow : c.shared.tables.runs.find? id = some (row.identified uid))
    (hrecord : (c₀.shared.tables.record id row).Identified
      (c.shared.tables.record id (row.identified uid)) uid)

/-- By induction on the interruptions; once a uid is saved there is none to save. -/
theorem interrupted_survives (h : Reached x c₀) (hrow : c₀.shared.tables.runs.find? id = some row)
    (hrun : row.status = .running) (hi : Interrupted x id c₀ c) : Survives x id row c₀ c := by
  induction hi with
  | refl => exact .same hrow rfl
  | @step d d' l hi hne hs ih =>
    have hr : Reached x d := h.trans hi.reachable
    have hlast : Interrupted x id d d' := .step .refl hne hs
    cases ih with
    | same hrow₁ hrecord₁ =>
      rcases interrupted_step hr hrow₁ hrun hne hs with ⟨hrow₂, hrecord₂⟩ | ⟨uid, hsaves, hrow₂, hrecord₂⟩
      · exact .same hrow₂ (hrecord₂.trans hrecord₁)
      · exact .identified uid d hi hsaves hlast hrow₂ (hrecord₁ ▸ hrecord₂)
    | identified uid c₁ hbefore hsaves hafter hrow₁ hrecord₁ =>
      rcases interrupted_step hr hrow₁ hrun hne hs with ⟨hrow₂, hrecord₂⟩ | ⟨uid', -, -, hnone, -⟩
      · exact .identified uid c₁ hbefore hsaves (hafter.trans hlast) hrow₂
          ⟨hrecord₁.none, hrecord₂.trans hrecord₁.eq⟩
      · cases hnone

end Runs
end Mic3
