import Mic3.Emissions
import Mic3.RunHistory

/-! Where every run came from: the one call that submitted it, and the release definition that call read. -/
namespace Mic3
open Relational Interleaving

/-- What a call computed from the catalog it read, before it called the store. -/
def Submission.Of (s : Submission) (call : SubmitRun) : Prop := ∃ t id, call.prepare t id = .ok s

/-- The columns that a submission fills, and that nothing changes afterwards. -/
structure Run.Carries (row : Run) (run : QueuedRun) : Prop where
  id : row.id = run.id
  modelReleaseId : row.modelReleaseId = run.modelReleaseId
  requestedBy : row.requestedBy = run.requestedBy
  parameters : row.parameters = run.parameters
  fingerprint : row.fingerprint = run.fingerprint

theorem QueuedRun.row_carries (run : QueuedRun) (createdAt : Time) : (run.row createdAt).Carries run :=
  ⟨rfl, rfl, rfl, rfl, rfl⟩

theorem Write.carries {row row' : Run} {artifacts : List RunArtifact} {events : List OutboxEvent}
    {run : QueuedRun} (h : Write row row' artifacts events) (hrow : row.Carries run) :
    row'.Carries run := by
  cases h <;> exact ⟨hrow.id, hrow.modelReleaseId, hrow.requestedBy, hrow.parameters, hrow.fingerprint⟩

theorem UnitOfWork.Allowed.carries {u : UnitOfWork} {run : QueuedRun} (h : u.Allowed)
    (hrow : u.loaded.Carries run) : u.row.Carries run := by
  rcases h with ⟨heq, -⟩ | hw
  · exact heq ▸ hrow
  · exact hw.carries hrow

/-- Entries that record nothing but acceptances. -/
def Acceptances (entries : List Entry) : Prop := ∀ entry ∈ entries, ∃ id invocation, entry = .accepted id invocation

/-- From its catalog read on, a call carries what it computed, and the limits it was given. -/
def SubmitRun.Builds (call : SubmitRun) : Pc → Prop
  | .getRelease => True
  | .lockAdmission s limits | .countTotal s limits | .countOwned s limits _ =>
    s.Of call ∧ call.limits = some limits
  | .findUser s | .insertRun s => s.Of call
  | .checkRelease s row | .checkUser s row | .insertEvent s row | .commit s row _ =>
    s.Of call ∧ row.Carries s.run

def AcceptRun.Builds : Pc → Prop
  | .commit _ _ _ entries => Acceptances entries
  | _ => True

def Consumer.Builds : Pc → Prop
  | .accept _ _ pc => AcceptRun.Builds pc
  | _ => True

def Proc.Builds : Proc → Prop
  | .submit call pc => call.Builds pc
  | .accept _ pc => AcceptRun.Builds pc
  | .consume _ pc => Consumer.Builds pc
  | _ => True

/-- Each run's row carries what one recorded submission computed. -/
structure Origins (w : World) : Prop where
  rows : ∀ id row, w.tables.runs.find? id = some row →
    ∃ (call : SubmitRun) (s : Submission), s.Of call ∧ row.Carries s.run ∧
      Entry.submitted id s.read call.limits ∈ w.history
  known : ∀ id read limits, Entry.submitted id read limits ∈ w.history →
    (w.tables.runs.find? id).isSome
  unique : ∀ id read limits read' limits', Entry.submitted id read limits ∈ w.history →
    Entry.submitted id read' limits' ∈ w.history → read = read' ∧ limits = limits'

def origins : Contract Pid World Proc where
  inv := Origins
  assert := fun _ l _ => l.Builds
  guarantee := fun _ _ _ => True

section Programs
variable {x : External} {p : Pid} {w w' : World} {i : Input} {e : Effect} {l l' : Proc}

theorem SubmitRun.builds_step {call : SubmitRun} {pc : SubmitRun.Pc} {r : Progress SubmitRun.Pc UUID}
    (hs : call.step w i pc = (e, r)) (hb : call.Builds pc) : r.All call.Builds := by
  rcases step_cases hs with ⟨-, err, rfl⟩ | hc
  · trivial
  cases pc with
  | getRelease =>
    obtain ⟨s, hp, -, ⟨limits, hlimits, rfl⟩ | ⟨-, rfl⟩⟩ := hc
    · exact ⟨⟨_, _, hp⟩, hlimits⟩
    · exact ⟨_, _, hp⟩
  | lockAdmission s limits =>
    obtain ⟨-, rfl⟩ := hc
    exact hb
  | countTotal s limits =>
    obtain ⟨-, rfl⟩ := hc
    exact hb
  | countOwned s limits total =>
    obtain ⟨-, -, rfl⟩ := hc
    exact hb.1
  | findUser s =>
    obtain ⟨-, rfl⟩ := hc
    exact hb
  | insertRun s =>
    obtain ⟨-, -, rfl⟩ := hc
    exact ⟨hb, s.run.row_carries i.createdAt⟩
  | checkRelease s row =>
    obtain ⟨-, -, rfl⟩ := hc
    exact hb
  | checkUser s row =>
    obtain ⟨-, rfl⟩ := hc
    exact hb
  | insertEvent s row =>
    obtain ⟨-, rfl⟩ := hc
    exact hb
  | commit s row event =>
    obtain ⟨-, rfl⟩ := hc
    trivial

theorem AcceptRun.builds_step {runId : UUID} {pc : AcceptRun.Pc} {r : Progress AcceptRun.Pc String}
    (hs : step runId w i pc = (e, r)) : r.All Builds := by
  rcases step_cases hs with ⟨-, err, rfl⟩ | hc
  · trivial
  cases pc with
  | readRelease =>
    obtain ⟨row, -, -, rfl⟩ := hc
    trivial
  | lockRelease releaseId =>
    obtain ⟨release, -, -, rfl⟩ := hc
    trivial
  | lockRun release =>
    obtain ⟨row, -, -, ⟨-, rfl⟩ | ⟨-, -, rfl⟩⟩ := hc
    · exact List.forall_mem_nil _
    · trivial
  | loadRelease release row =>
    obtain ⟨pc', hd, -, rfl⟩ := hc
    obtain ⟨definition, -, ⟨invocation, -, -, rfl⟩ | ⟨-, rfl⟩⟩ := decide_ok hd
    · exact List.forall_mem_singleton.mpr ⟨row.id, invocation, rfl⟩
    · exact List.forall_mem_nil _
  | commit release u outcome entries =>
    obtain ⟨-, rfl⟩ := hc
    trivial

theorem Consumer.builds_step {d : Decoders} {topic : String} {pc : Consumer.Pc}
    {r : Progress Consumer.Pc Unit} (hs : step d topic p w i pc = (e, r)) : r.All Builds := by
  have hc := step_cases hs
  cases pc with
  | poll =>
    rcases hc with ⟨-, rfl | rfl⟩ | ⟨tp, ⟨-, -, rfl⟩ | ⟨record, -, -, -, rfl⟩⟩ <;> trivial
  | decode location message =>
    obtain ⟨-, ⟨runId, -, rfl⟩ | ⟨rejection, -, rfl⟩⟩ := hc <;> trivial
  | accept location runId pc =>
    obtain ⟨e₀, r₀, hs₀, hr⟩ := hc
    have hnext := AcceptRun.builds_step hs₀
    rcases hr with ⟨pc', rfl, -, rfl⟩ | ⟨outcome, -, -, rfl⟩ | ⟨message, -, -, rfl⟩ | ⟨err, -, -, rfl⟩
    · exact hnext
    · trivial
    · trivial
    · trivial
  | reject location rejection pc =>
    obtain ⟨e₀, r₀, -, ⟨pc', -, -, rfl⟩ | ⟨-, -, rfl⟩⟩ := hc <;> trivial
  | commit location outcome =>
    rcases hc with ⟨-, rfl⟩ | ⟨-, rfl⟩ <;> trivial
  | close =>
    obtain ⟨-, rfl⟩ := hc
    trivial

theorem Proc.builds_step (hs : l.next x p w i = (e, l')) (hb : l.Builds) : l'.Builds := by
  cases l with
  | submit call pc =>
    obtain ⟨-, rfl⟩ := Prod.mk.inj hs
    exact (SubmitRun.builds_step rfl hb).proc (fun _ h => h) trivial
  | accept runId pc =>
    obtain ⟨-, rfl⟩ := Prod.mk.inj hs
    exact (AcceptRun.builds_step rfl).proc (fun _ h => h) trivial
  | consume topic pc =>
    obtain ⟨-, rfl⟩ := Prod.mk.inj hs
    exact (Consumer.builds_step rfl).proc (fun _ h => h) trivial
  | idle | unwinding =>
    obtain ⟨-, rfl⟩ := Prod.mk.inj hs
    trivial
  | register | claim | reconcile | publish =>
    obtain ⟨-, rfl⟩ := Prod.mk.inj hs
    exact (Progress.all_true _).proc (fun _ h => h) trivial

theorem Proc.Commits.of_submit {row : Run} {event : OutboxEvent} {entries : List Entry}
    (h : l.Commits (.submit row event) entries) : ∃ call s, l = .submit call (.commit s row event) ∧
      entries = [.submitted row.id s.read call.limits] := by
  generalize hchange : Change.submit row event = change at h
  cases h with
  | submit call s row' event' =>
    obtain ⟨rfl, rfl⟩ := Change.submit.inj hchange
    exact ⟨call, s, rfl, rfl⟩
  | claim worker u started => cases u <;> contradiction
  | reject topic location rejection message => cases message <;> contradiction
  | _ => contradiction

/-- A commit records a submission only when it is one. -/
theorem Proc.Commits.submitted {change : Change} {entries : List Entry} (h : l.Commits change entries)
    (hb : l.Builds) {id : UUID} {read : ReleaseDefinition} {limits : Option RunAdmissionLimits}
    (hm : Entry.submitted id read limits ∈ entries) :
    ∃ call s row event, l = .submit call (.commit s row event) ∧ change = .submit row event ∧
      id = row.id ∧ read = s.read ∧ limits = call.limits := by
  have hnone {entries : List Entry} (h : Acceptances entries) : Entry.submitted id read limits ∉ entries := by
    intro hm
    obtain ⟨_, _, heq⟩ := h _ hm
    contradiction
  cases h with
  | submit call s row event =>
    obtain ⟨rfl, rfl, rfl⟩ := Entry.submitted.inj (List.mem_singleton.mp hm)
    exact ⟨call, s, row, event, rfl, rfl, rfl, rfl, rfl⟩
  | accept runId release u outcome => exact absurd hm (hnone hb)
  | handle topic location runId release u outcome entries =>
    rcases List.mem_cons.mp hm with heq | hm
    · contradiction
    · exact absurd hm (hnone hb)
  | finish worker runId seen u =>
    split at hm
    · contradiction
    · cases (List.mem_singleton.mp hm)
  | publish | reject => cases (List.mem_singleton.mp hm)
  | register | claim | saveUid => contradiction

/-- The run of a submission that commits was not there before, and is there after. -/
theorem submit_new {row : Run} {event : OutboxEvent} {entries : List Entry}
    (ha : w.apply p (.commit (.submit row event) entries) = some w') :
    w.tables.runs.find? row.id = none ∧ w'.tables.runs.find? row.id = some row := by
  obtain ⟨tables, ht, rfl⟩ := commit_apply ha
  obtain ⟨runs, outbox, hins, -, rfl⟩ := Change.submit_apply ht
  exact ⟨Table.insert_fresh hins, (Table.find?_insert hins).trans (if_pos rfl)⟩

/-- A submission of the history was there before the step, or the step is its commit. -/
theorem Proc.submitted_cases (hs : l.next x p w i = (e, l')) (ha : w.apply p e = some w') (hb : l.Builds)
    {id : UUID} {read : ReleaseDefinition} {limits : Option RunAdmissionLimits}
    (hm : Entry.submitted id read limits ∈ w'.history) : Entry.submitted id read limits ∈ w.history ∨
      ∃ call s row event, l = .submit call (.commit s row event) ∧
        e = .commit (.submit row event) [.submitted row.id s.read call.limits] ∧
        id = row.id ∧ read = s.read ∧ limits = call.limits := by
  cases hcommit : e.commits with
  | false =>
    rcases history_apply hcommit ha with hh | ⟨event, hh⟩
    · exact .inl (hh ▸ hm)
    · rw [hh] at hm
      exact .inl ((List.mem_cons.mp hm).resolve_left (fun he => by cases he))
  | true =>
    obtain ⟨change, entries, rfl⟩ := e.commits_iff.mp hcommit
    have hc : l.Commits change entries := Proc.commits hs rfl
    obtain ⟨tables, -, rfl⟩ := commit_apply ha
    rcases List.mem_append.mp hm with hm | hm
    · obtain ⟨call, s, row, event, rfl, rfl, hid, hread, hlimits⟩ := hc.submitted hb hm
      cases hc
      exact .inr ⟨call, s, row, event, rfl, rfl, hid, hread, hlimits⟩
    · exact .inl hm

/-- Every run keeps its origin, and one that is added has one. -/
theorem Origins.rows_apply (hs : l.next x p w i = (e, l')) (ha : w.apply p e = some w')
    (hal : e.Allowed w.tables) (hb : l.Builds) (h : Origins w) {id : UUID} {row : Run}
    (hrow : w'.tables.runs.find? id = some row) :
    ∃ (call : SubmitRun) (s : Submission), s.Of call ∧ row.Carries s.run ∧
      Entry.submitted id s.read call.limits ∈ w'.history := by
  have hold {id : UUID} {row : Run} (hrow : w.tables.runs.find? id = some row) :
      ∃ (call : SubmitRun) (s : Submission), s.Of call ∧ row.Carries s.run ∧
        Entry.submitted id s.read call.limits ∈ w'.history := by
    obtain ⟨call, s, hof, hcarries, hm⟩ := h.rows id row hrow
    exact ⟨call, s, hof, hcarries, history_subset ha hm⟩
  rcases hal.runs ha with heq | ⟨row', event, entries, rfl, -, hins⟩ | ⟨u, entries, -, hu, hcurrent, hfind⟩
  · exact hold (heq ▸ hrow)
  · rw [Table.find?_insert hins] at hrow
    split at hrow
    · -- The new row is the submission's own.
      rename_i hid
      obtain rfl := Option.some.inj hrow
      obtain ⟨call, s, rfl, rfl⟩ := (Proc.commits hs rfl).of_submit
      obtain ⟨hof, hcarries⟩ := hb
      obtain ⟨tables, -, rfl⟩ := commit_apply ha
      exact ⟨call, s, hof, hcarries, hid ▸ List.mem_cons_self⟩
    · exact hold hrow
  · rw [hfind id] at hrow
    split at hrow
    · rename_i hid
      obtain rfl := Option.some.inj hrow
      obtain ⟨call, s, hof, hcarries, hm⟩ := hold (hid ▸ hcurrent)
      exact ⟨call, s, hof, hu.carries hcarries, hm⟩
    · exact hold hrow

theorem Origins.apply (hs : l.next x p w i = (e, l')) (ha : w.apply p e = some w')
    (hal : e.Allowed w.tables) (hb : l.Builds) (h : Origins w) : Origins w' where
  rows := fun _ _ hrow => h.rows_apply hs ha hal hb hrow
  known := by
    intro id read limits hm
    rcases Proc.submitted_cases hs ha hb hm with hm | ⟨call, s, row, event, -, rfl, rfl, -, -⟩
    · exact hal.runs_isSome ha (h.known id read limits hm)
    · exact Option.isSome_iff_exists.mpr ⟨row, (submit_new ha).2⟩
  unique := by
    intro id read limits read' limits' hm hm'
    -- What the history tells of a run rules out that this step submits it.
    have hfresh {row : Run} {event : OutboxEvent} {entries : List Entry} {read : ReleaseDefinition}
        {limits : Option RunAdmissionLimits} (he : e = .commit (.submit row event) entries) :
        Entry.submitted row.id read limits ∉ w.history := by
      intro hm
      have hknown := h.known _ _ _ hm
      rw [(submit_new (he ▸ ha)).1] at hknown
      contradiction
    rcases Proc.submitted_cases hs ha hb hm with hm | ⟨call, s, row, event, -, he, rfl, rfl, rfl⟩
    · rcases Proc.submitted_cases hs ha hb hm' with hm' | ⟨call, s, row, event, -, he, rfl, rfl, rfl⟩
      · exact h.unique _ _ _ _ _ hm hm'
      · exact absurd hm (hfresh he)
    · rcases Proc.submitted_cases hs ha hb hm' with hm' | ⟨call', s', row', event', -, he', -, rfl, rfl⟩
      · exact absurd hm' (hfresh he)
      · obtain ⟨-, hentries⟩ := Effect.commit.inj (he.symm.trans he')
        obtain ⟨-, hread, hlimits⟩ := Entry.submitted.inj (List.cons.inj hentries).1
        exact ⟨hread, hlimits⟩

end Programs

theorem origins_layer (x : External) : Layer origins (runHistory.both holding) x where
  start := fun _ task _ => by cases task <;> trivial
  failing := by
    intro _ l _
    cases l with
    | reconcile worker runId pc => cases pc <;> trivial
    | _ => trivial
  refl := fun _ _ => trivial
  step := by
    intro p w i l e l' w' hs ha _ hl _ h hb
    obtain ⟨hal, -⟩ := Proc.knows_step hs hl.1 hl.2 ha
    exact ⟨h.apply hs ha hal hb, Proc.builds_step hs hb, trivial⟩

theorem origins_proof (x : External) :
    origins.Proof (runHistory.both holding) (platform x) fun _ _ => True where
  act := by
    intro p a w l w' l' _ ha hinv hl hg h hb
    exact (origins_layer x).act (fun _ _ _ => ⟨trivial, .of_nothing rfl rfl⟩) ha hinv hl hg h hb
  stable := fun _ _ _ _ _ _ _ _ _ _ _ hb => hb
  env := by
    intro ev w w' _ he _ h
    obtain ⟨hruns, -⟩ := World.event_tables he
    have hhistory := World.event_history he
    refine ⟨⟨?_, ?_, ?_⟩, fun _ _ _ hb => hb⟩
    · rw [hruns, hhistory]
      exact h.rows
    · rw [hruns, hhistory]
      exact h.known
    · rw [hhistory]
      exact h.unique

theorem origins_established (x : External) :
    (origins.both (runHistory.both holding)).Established (platform x) (fun _ _ => True) initial :=
  (origins_proof x).established (runHistory_established x)
    ⟨⟨fun _ _ h => (by cases h), fun _ _ _ h => (by cases h), fun _ _ _ _ _ h => (by cases h)⟩,
      fun _ => trivial⟩

theorem Reached.origins {x : External} {c : Config Pid World Proc} (h : Reached x c) : Origins c.shared :=
  ((origins_established x).holds c h).1.1

end Mic3
