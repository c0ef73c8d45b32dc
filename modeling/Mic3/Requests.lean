import Mic3.Envelopes
import Mic3.Offsets
import Mic3.Outbox
import Mic3.Registrations
import Mic3.SubmittedWork

/-! The platform understands what it publishes. Every record that was sent for a request is the encoding of an outbox
row, decodes to the row's run, and is answered by the outcome of an acceptance; every other event is rejected. -/
namespace Mic3
open Relational Interleaving

/-- Outcomes of an acceptance. -/
def understood : List String := ["accepted", "failed-run", "unchanged"]

/-- The message is the publisher's encoding of this outbox row. -/
def World.Encodes (x : External) (w : World) (id : UUID) (message : Message) : Prop :=
  ∃ event offset, w.tables.outbox.find? id = some event ∧ event.eventType ∈ publishedTypes ∧
    message = encodeEvent x.isoformat event offset

/-- The record at this place was sent for a request of this run. -/
def World.RequestAt (w : World) (location : RecordLocation) (runId : UUID) : Prop :=
  ∃ record id event, w.recordAt location = some record ∧ record.source = some id ∧
    w.tables.outbox.find? id = some event ∧ event.eventType = "run.requested" ∧ event.runId = runId

/-- What is on its way or stored encodes outbox rows, and requests were answered by acceptances. -/
structure Publications (x : External) (w : World) : Prop where
  sent : ∀ record ∈ w.broker.inFlight, w.Encodes x record.event record.message
  stored : ∀ tp, ∀ record ∈ w.broker.log tp, ∀ id, record.source = some id → w.Encodes x id record.message
  referred : ∀ id row, w.tables.runs.find? id = some row → (w.tables.releases.find? row.modelReleaseId).isSome
  answered : ∀ location outcome, Entry.handled location outcome ∈ w.history → (w.recordAt location).isSome ∧
    ∀ runId, w.RequestAt location runId → outcome ∈ understood

/-- The statements an acceptance still has. -/
def AcceptRun.left : Pc → ℕ
  | .readRelease => 5
  | .lockRelease _ => 4
  | .lockRun _ => 3
  | .loadRelease .. => 2
  | .commit .. => 1

def AcceptRun.Answers : Pc → Prop
  | .commit _ _ outcome _ => outcome ∈ understood
  | _ => True

/-- A submission checked that its release is there. -/
def SubmitRun.Checked (w : World) : Pc → Prop
  | .checkUser _ row | .insertEvent _ row | .commit _ row _ =>
    (w.tables.releases.find? row.modelReleaseId).isSome
  | _ => True

def Consumer.Answers (w : World) : Pc → Prop
  | .accept _ _ pc => AcceptRun.Answers pc
  | .reject location _ _ => ∀ runId, ¬ w.RequestAt location runId
  | .commit location outcome => ∀ runId, w.RequestAt location runId → outcome ∈ understood
  | _ => True

def Proc.Answers (w : World) : Proc → Prop
  | .submit _ pc => SubmitRun.Checked w pc
  | .consume _ pc => Consumer.Answers w pc
  | _ => True

/-- Published requests are understood. -/
def requests (x : External) : Contract Pid World Proc :=
  ⟨Publications x, fun _ l w => l.Answers w, fun _ _ _ => True⟩

section Records
variable {x : External} {p : Pid} {w w' : World} {e : Effect} {location : RecordLocation} {runId id : UUID}
  {message : Message}

theorem World.Encodes.mono (h : w.Encodes x id message) (hkeeps : w.tables.KeepsEvents w'.tables) :
    w'.Encodes x id message := by
  obtain ⟨event, offset, hevent, htype, rfl⟩ := h
  obtain ⟨event', hevent', hsame, -⟩ := hkeeps id event hevent
  exact ⟨event', offset, hevent', (OutboxEvent.inserted_eq hsame).1 ▸ htype, (encodeEvent_congr hsame).symm⟩

/-- A request decodes to its run. -/
theorem Publications.decodes (h : Publications x w) (hx : x.Codecs) (hr : w.RequestAt location runId) :
    ∃ record, w.recordAt location = some record ∧ x.decoders.decodeRequest record.message = .run runId := by
  obtain ⟨record, id, event, hrecord, hsource, hevent, hrequest, rfl⟩ := hr
  obtain ⟨event', offset, hevent', htype, hmessage⟩ :=
    h.stored location.tp record (List.mem_of_getElem? hrecord) id hsource
  obtain rfl := Option.some.inj (hevent'.symm.trans hevent)
  refine ⟨record, hrecord, ?_⟩
  rw [hmessage, hx.decodeRequest_encodeEvent htype, if_pos hrequest]

theorem World.RequestAt.exists (h : w.RequestAt location runId) (hc : w.tables.Consistent) :
    (w.tables.runs.find? runId).isSome := by
  obtain ⟨record, id, event, -, -, hevent, -, rfl⟩ := h
  exact hc.events event (Table.mem_of_find? hevent)

/-- A record that was there is a request only if it was one. -/
theorem World.RequestAt.back (h : w'.RequestAt location runId) (hinv : Publications x w)
    (hthere : (w.recordAt location).isSome) (hlog : ∀ tp, w.broker.log tp <+: w'.broker.log tp)
    (hkeeps : w.tables.KeepsEvents w'.tables) : w.RequestAt location runId := by
  obtain ⟨record, id, event, hrecord, hsource, hevent, hrequest, hrun⟩ := h
  obtain ⟨record', hrecord'⟩ := Option.isSome_iff_exists.mp hthere
  obtain rfl := Option.some.inj ((World.recordAt_mono hrecord' hlog).symm.trans hrecord)
  -- Its outbox row was there when it was stored.
  obtain ⟨old, -, hold, -⟩ := hinv.stored location.tp record' (List.mem_of_getElem? hrecord') id hsource
  obtain ⟨event', hevent', hsame, -⟩ := hkeeps id old hold
  obtain rfl := Option.some.inj (hevent'.symm.trans hevent)
  obtain ⟨htype, hid⟩ := OutboxEvent.inserted_eq hsame
  exact ⟨record', id, old, hrecord', hsource, hold, htype.symm.trans hrequest, hid.symm.trans hrun⟩

/-- No statement writes to the logs; only a publication sends. -/
theorem inFlight_apply (ha : w.apply p e = some w') : w'.broker.log = w.broker.log ∧
    (w'.broker.inFlight = w.broker.inFlight ∨
      ∃ record, e = .produce record ∧ w'.broker.inFlight = record :: w.broker.inFlight) := by
  by_cases hbroker : e.quiet = true ∨ e.commits = true
  · have hsame := broker_apply hbroker ha
    exact ⟨congrArg Broker.log hsame, .inl (congrArg Broker.inFlight hsame)⟩
  cases e with
  | produce record =>
    obtain rfl := Option.some.inj ha
    exact ⟨rfl, .inr ⟨record, rfl, rfl⟩⟩
  | createJob key job =>
    obtain ⟨-, rfl⟩ := create_apply ha
    exact ⟨rfl, .inl rfl⟩
  | acknowledge | assign | poll | commitOffset =>
    obtain ⟨-, h⟩ := Option.ite_none_right_eq_some.mp ha
    obtain rfl := Option.some.inj h
    exact ⟨rfl, .inl rfl⟩
  | closeConsumer | disconnect =>
    obtain rfl := Option.some.inj ha
    exact ⟨rfl, .inl rfl⟩
  | _ => exact absurd hbroker (by simp [Effect.quiet, Effect.commits])

end Records
section Acceptances
variable {p : Pid} {w : World} {i : Input} {e : Effect} {runId : UUID}

/-- Every definition is judged: it has the run's fingerprint or not. -/
theorem World.Submitted.judged {row : Run} {read : ReleaseDefinition} {c : Computation}
    (h : w.Submitted row read c) (d : ReleaseDefinition) :
    ∃ compatible, matchesFingerprint d row.parameters row.fingerprint = .ok compatible := by
  rw [h.parameters]
  cases hc : d.computation? c.mode with
  | none =>
    refine ⟨false, ?_⟩
    rw [matchesFingerprint, fingerprint_missing hc]
    rfl
  | some c' =>
    have htext : Mic3.fingerprint d (ExecutionDefinition.modeParameters c.mode) = .ok (sha256Hex c'.text) :=
      fingerprint_ok.mpr ⟨c', hc, rfl⟩
    exact ⟨_, by rw [matchesFingerprint, htext]; rfl⟩

theorem AcceptRun.answers_step {pc : Pc} {r : Progress Pc String} (hs : step runId w i pc = (e, r)) : r.All Answers := by
  rcases step_cases hs with ⟨-, err, rfl⟩ | hc
  · trivial
  cases pc with
  | readRelease => obtain ⟨row, -, -, rfl⟩ := hc; trivial
  | lockRelease releaseId => obtain ⟨release, -, -, rfl⟩ := hc; trivial
  | lockRun release =>
    obtain ⟨row, -, -, ⟨-, rfl⟩ | ⟨-, -, rfl⟩⟩ := hc
    · exact (by decide : "unchanged" ∈ understood)
    · trivial
  | loadRelease release row =>
    obtain ⟨pc', hd, -, rfl⟩ := hc
    obtain ⟨definition, -, ⟨invocation, -, -, rfl⟩ | ⟨-, rfl⟩⟩ := decide_ok hd
    · exact (by decide : "accepted" ∈ understood)
    · exact (by decide : "failed-run" ∈ understood)
  | commit release u outcome entries => obtain ⟨-, rfl⟩ := hc; trivial

/-- An acceptance of a run that was submitted goes on, or returns one of its outcomes. -/
theorem AcceptRun.goes_on {pc : Pc} {r : Progress Pc String} (hs : step runId w i pc = (e, r))
    (hanswers : Answers pc) (hrun : (w.tables.runs.find? runId).isSome) (hk : Configures w.tables runId pc)
    (hv : ∀ h ∈ holds pc, h.Valid p w)
    (hreferred : ∀ id row, w.tables.runs.find? id = some row → (w.tables.releases.find? row.modelReleaseId).isSome)
    (hcat : w.tables.Catalogued) (hconf : Configured w) (horigins : Origins w) :
    (∃ pc', r = .running pc' ∧ left pc' < left pc ∧ Answers pc') ∨
      ∃ outcome, r = .returned outcome ∧ outcome ∈ understood := by
  obtain ⟨row, hrow⟩ := Option.isSome_iff_exists.mp hrun
  cases pc with
  | readRelease =>
    simp only [step, hrow] at hs
    obtain ⟨-, rfl⟩ := Prod.mk.inj hs
    exact .inl ⟨_, rfl, Nat.lt_succ_self 4, trivial⟩
  | lockRelease releaseId =>
    obtain ⟨row', hrow', rfl⟩ := hk
    obtain ⟨release, hrelease⟩ := Option.isSome_iff_exists.mp (hreferred runId row' hrow')
    simp only [step, hrelease] at hs
    obtain ⟨-, rfl⟩ := Prod.mk.inj hs
    exact .inl ⟨_, rfl, Nat.lt_succ_self 3, trivial⟩
  | lockRun release =>
    simp only [step, hrow] at hs
    split at hs <;> obtain ⟨-, rfl⟩ := Prod.mk.inj hs
    · exact .inl ⟨_, rfl, (by decide : 1 < 3), (by decide : "unchanged" ∈ understood)⟩
    · exact .inl ⟨_, rfl, Nat.lt_succ_self 2, trivial⟩
  | loadRelease release row =>
    have hrelease : (Hold.release release).Valid p w := hv _ (by simp [holds])
    have hheld : (Hold.run row).Valid p w := hv _ (by simp [holds])
    obtain ⟨model, hmodel⟩ := Option.isSome_iff_exists.mp (hconf.models _ _ hrelease.2)
    obtain ⟨execution, hexecution⟩ := hcat.reads _ _ hrelease.2
    obtain ⟨read, c, hsubmitted⟩ := horigins.submitted hheld.2
    have hload : loadReleaseDefinition w.tables release =
        .ok ⟨model.id, model.displayName, release.imageDigest, execution⟩ := by
      simp only [loadReleaseDefinition, hmodel, hexecution]
      rfl
    obtain ⟨compatible, hmatches⟩ := hsubmitted.judged ⟨model.id, model.displayName, release.imageDigest, execution⟩
    have hdecide : ∃ u outcome entries, decide w.tables release row i = .ok (.commit release u outcome entries) ∧
        outcome ∈ understood := by
      cases compatible with
      | true =>
        obtain ⟨invocation, hinvocation⟩ := selectedInvocation_of_matches hmatches
        exact ⟨_, _, _, by simp only [decide, hload, hmatches, hinvocation, bind, Except.bind, if_true]; rfl,
          by decide⟩
      | false => exact ⟨_, _, _, by simp only [decide, hload, hmatches, bind, Except.bind]; rfl, by decide⟩
    obtain ⟨u, outcome, entries, hdecide, houtcome⟩ := hdecide
    simp only [step, hdecide, attempt] at hs
    obtain ⟨-, rfl⟩ := Prod.mk.inj hs
    exact .inl ⟨_, rfl, Nat.lt_succ_self 1, houtcome⟩
  | commit release u outcome entries =>
    obtain ⟨-, rfl⟩ := Prod.mk.inj hs
    exact .inr ⟨outcome, rfl, hanswers⟩

end Acceptances
/-- The promises that published requests rest on. -/
def groundwork (x : External) : Contract Pid World Proc :=
  (offsets x.decoders).both (publication.both (configuration.both (registrations.both
    (origins.both (runHistory.both holding)))))

theorem groundwork_established (x : External) :
    (groundwork x).Established (platform x) (fun _ _ => True) initial :=
  (offsets_established x).left.both ((publication_established x).left.both
    ((configuration_established x).left.both ((registrations_established x).left.both (origins_established x))))

section Programs
variable {x : External} {p : Pid} {w w' : World} {i : Input} {e : Effect} {l l' : Proc}

/-- What a process knows of requests survives the others' steps. -/
theorem Proc.Answers.later (h : l.Answers w) (hplaces : l.Places x.decoders p w) (hinv : Publications x w)
    (hlog : ∀ tp, w.broker.log tp <+: w'.broker.log tp) (hkeeps : w.tables.KeepsEvents w'.tables)
    (hreleases : ∀ id row, w.tables.releases.find? id = some row → (w'.tables.releases.find? id).isSome) :
    l.Answers w' := by
  cases l with
  | submit call pc =>
    cases pc with
    | checkUser | insertEvent | commit =>
      obtain ⟨release, hrelease⟩ := Option.isSome_iff_exists.mp h
      exact hreleases _ release hrelease
    | _ => trivial
  | consume topic pc =>
    cases pc with
    | accept location runId pc => exact h
    | reject location rejection pc =>
      exact fun runId hr => h runId (hr.back hinv hplaces.1.record hlog hkeeps)
    | commit location outcome =>
      exact fun runId hr => h runId (hr.back hinv hplaces.1.record hlog hkeeps)
    | _ => trivial
  | _ => trivial

theorem SubmitRun.checked_step {call : SubmitRun} {pc : SubmitRun.Pc} {r : Progress SubmitRun.Pc UUID}
    (hs : call.step w i pc = (e, r)) (hk : Checked w pc) (ha : w.apply p e = some w') : r.All (Checked w') := by
  rcases step_cases hs with ⟨-, err, rfl⟩ | hc
  · trivial
  cases pc with
  | getRelease => obtain ⟨s, -, -, ⟨limits, -, rfl⟩ | ⟨-, rfl⟩⟩ := hc <;> trivial
  | lockAdmission | countTotal | findUser => obtain ⟨-, rfl⟩ := hc; trivial
  | countOwned | insertRun => obtain ⟨-, -, rfl⟩ := hc; trivial
  | checkRelease s row =>
    obtain ⟨hrelease, rfl, rfl⟩ := hc
    have htables := (continues_apply rfl ha).1
    exact (htables ▸ hrelease : (w'.tables.releases.find? row.modelReleaseId).isSome)
  | checkUser s row =>
    have hcommit : e.commits = false := by rcases hc.1 with ⟨user, rfl⟩ | rfl <;> rfl
    obtain ⟨-, rfl⟩ := hc
    have htables := tables_apply hcommit ha
    exact (htables ▸ hk : (w'.tables.releases.find? row.modelReleaseId).isSome)
  | insertEvent s row =>
    obtain ⟨rfl, rfl⟩ := hc
    have htables := (continues_apply rfl ha).1
    exact (htables ▸ hk : (w'.tables.releases.find? row.modelReleaseId).isSome)
  | commit s row event => obtain ⟨-, rfl⟩ := hc; trivial

/-- A run is added only with the release that its submission checked. -/
theorem Publications.referred_step (hs : l.next x p w i = (e, l')) (hinv : Publications x w) (hk : l.Answers w)
    (hal : e.Allowed w.tables) (ha : w.apply p e = some w')
    (hreleases : ∀ id row, w.tables.releases.find? id = some row → (w'.tables.releases.find? id).isSome)
    {id : UUID} {row : Run} (hrow : w'.tables.runs.find? id = some row) :
    (w'.tables.releases.find? row.modelReleaseId).isSome := by
  have hold {releaseId : UUID} (h : (w.tables.releases.find? releaseId).isSome) :
      (w'.tables.releases.find? releaseId).isSome := by
    obtain ⟨release, hrelease⟩ := Option.isSome_iff_exists.mp h
    exact hreleases releaseId release hrelease
  rcases hal.runs ha with heq | ⟨row', event, entries, rfl, -, hins⟩ | ⟨u, entries, -, hu, hcurrent, hfind⟩
  · exact hold (hinv.referred id row (heq ▸ hrow))
  · rw [Table.find?_insert hins] at hrow
    split at hrow
    · obtain rfl := Option.some.inj hrow
      obtain ⟨call, s, rfl, -⟩ := (Proc.commits hs rfl).of_submit
      exact hold hk
    · exact hold (hinv.referred id row hrow)
  · rw [hfind id] at hrow
    split at hrow
    · obtain rfl := Option.some.inj hrow
      exact hu.sameWork.modelReleaseId ▸ hold (hinv.referred _ _ hcurrent)
    · exact hold (hinv.referred id row hrow)

theorem Publications.sent_step (hs : l.next x p w i = (e, l')) (hinv : Publications x w) (hl : Holding p l w)
    (ha : w.apply p e = some w') (hkeeps : w.tables.KeepsEvents w'.tables) :
    ∀ record ∈ w'.broker.inFlight, w'.Encodes x record.event record.message := by
  intro record hmem
  rcases (inFlight_apply ha).2 with heq | ⟨sent, rfl, heq⟩
  · exact (hinv.sent record (heq ▸ hmem)).mono hkeeps
  · rw [heq] at hmem
    rcases List.mem_cons.mp hmem with rfl | hmem
    · -- The event that is sent is one of the batch, whose rows are locked.
      rcases Proc.emits hs with hquiet | ⟨change, entries, hcommit, -⟩ | hrequest
      · contradiction
      · contradiction
      · generalize heffect : Effect.produce record = effect at hrequest
        cases hrequest with
        | produce publisher marked event todo offset htype =>
          obtain rfl := Effect.produce.inj heffect
          have hbatch : event ∈ (Proc.publish publisher (.publish marked (event :: todo))).batch :=
            List.mem_append_right _ List.mem_cons_self
          have hencodes : w.Encodes x event.id (encodeEvent x.isoformat event offset) :=
            ⟨event, offset, (Proc.batch_valid hl hbatch).2, htype, rfl⟩
          exact hencodes.mono hkeeps
        | _ => contradiction
    · exact (hinv.sent record hmem).mono hkeeps

/-- An outcome that is noted is that of an acceptance, or rejects what is no request. -/
theorem Publications.answered_step (hs : l.next x p w i = (e, l')) (hinv : Publications x w) (hk : l.Answers w)
    (hplaces : l.Places x.decoders p w) (ha : w.apply p e = some w')
    (hlog : ∀ tp, w.broker.log tp <+: w'.broker.log tp) (hkeeps : w.tables.KeepsEvents w'.tables)
    {location : RecordLocation} {outcome : String} (hm : Entry.handled location outcome ∈ w'.history) :
    (w'.recordAt location).isSome ∧ ∀ runId, w'.RequestAt location runId → outcome ∈ understood := by
  have hthere (h : (w.recordAt location).isSome) : (w'.recordAt location).isSome := by
    obtain ⟨record, hrecord⟩ := Option.isSome_iff_exists.mp h
    exact Option.isSome_iff_exists.mpr ⟨record, World.recordAt_mono hrecord hlog⟩
  have hold (hm : Entry.handled location outcome ∈ w.history) : (w'.recordAt location).isSome ∧
      ∀ runId, w'.RequestAt location runId → outcome ∈ understood := by
    obtain ⟨hrecord, houtcome⟩ := hinv.answered location outcome hm
    exact ⟨hthere hrecord, fun runId hr => houtcome runId (hr.back hinv hrecord hlog hkeeps)⟩
  cases hcommit : e.commits with
  | false =>
    rcases history_apply hcommit ha with heq | ⟨event, heq⟩
    · exact hold (heq ▸ hm)
    · rw [heq] at hm
      exact hold ((List.mem_cons.mp hm).resolve_left (fun he => by cases he))
  | true =>
    obtain ⟨change, entries, rfl⟩ := e.commits_iff.mp hcommit
    have hcommits := Proc.commits hs rfl
    have hhistory : w'.history = entries ++ w.history := by
      obtain ⟨tables, -, rfl⟩ := commit_apply ha
      rfl
    rw [hhistory] at hm
    rcases List.mem_append.mp hm with hm | hm
    · rcases hcommits.handled hplaces hm with ⟨topic, runId, release, u, rest, rfl, -⟩ |
        ⟨topic, rejection, message, rfl, rfl⟩
      · exact ⟨hthere hplaces.1.record, fun _ _ => hk⟩
      · refine ⟨hthere hplaces.1.record, fun runId hr => ?_⟩
        exact absurd (hr.back hinv hplaces.1.record hlog hkeeps) (hk runId)
    · exact hold hm

/-- A consumer rejects no request. -/
theorem Consumer.answers_step (hx : x.Codecs) {topic : String} {pc : Consumer.Pc} {r : Progress Consumer.Pc Unit}
    (hs : step x.decoders topic p w i pc = (e, r)) (hk : Consumer.Answers w pc)
    (hplaces : Consumer.Places x.decoders p w pc) (hconfigures : Consumer.Configures w.tables pc)
    (hv : ∀ h ∈ holds pc, h.Valid p w) (hinv : Publications x w) (hc : w.tables.Consistent)
    (hcat : w.tables.Catalogued) (hconf : Configured w) (horigins : Origins w)
    (hlog : ∀ tp, w.broker.log tp <+: w'.broker.log tp) (hkeeps : w.tables.KeepsEvents w'.tables) :
    r.All (Consumer.Answers w') := by
  have hcases := step_cases hs
  cases pc with
  | poll => rcases hcases with ⟨-, rfl | rfl⟩ | ⟨tp, ⟨-, -, rfl⟩ | ⟨record, -, -, -, rfl⟩⟩ <;> trivial
  | decode location message =>
    obtain ⟨hin, record, hrecord, rfl⟩ := hplaces
    obtain ⟨-, ⟨runId, -, rfl⟩ | ⟨rejection, hdecode, rfl⟩⟩ := hcases
    · trivial
    · intro runId hr
      obtain ⟨record', hrecord', hdecode'⟩ := hinv.decodes hx (hr.back hinv hin.record hlog hkeeps)
      obtain rfl := Option.some.inj (hrecord'.symm.trans hrecord)
      cases (hdecode'.symm.trans hdecode)
  | accept location runId pc =>
    obtain ⟨hin, -, record, hrecord, hdecode⟩ := hplaces
    obtain ⟨e₀, r₀, hs₀, hr⟩ := hcases
    rcases hr with ⟨pc', rfl, -, rfl⟩ | ⟨outcome, rfl, -, rfl⟩ | ⟨message, rfl, -, rfl⟩ | ⟨err, -, -, rfl⟩
    · exact AcceptRun.answers_step hs₀
    · cases pc with
      | commit release u outcome' entries =>
        obtain ⟨-, houtcome⟩ := Prod.mk.inj hs₀
        obtain rfl := Progress.returned.inj houtcome
        exact fun _ _ => hk
      | _ =>
        rcases AcceptRun.emits hs₀ with ⟨-, hne⟩ | ⟨release, u, outcome', entries, hpc, -⟩
        · exact absurd rfl (hne outcome)
        · contradiction
    · -- The run of a request exists, and its acceptance does not raise.
      intro runId' hr
      have hrequest := hr.back hinv hin.record hlog hkeeps
      obtain ⟨record', hrecord', hdecode'⟩ := hinv.decodes hx hrequest
      obtain rfl := Option.some.inj (hrecord'.symm.trans hrecord)
      obtain rfl : runId' = runId := Request.run.inj (hdecode'.symm.trans hdecode)
      rcases AcceptRun.goes_on hs₀ hk (hrequest.exists hc) hconfigures hv hinv.referred hcat hconf horigins with
        ⟨pc', hr, -⟩ | ⟨outcome, hr, -⟩ <;> contradiction
    · trivial
  | reject location rejection pc =>
    have hno (runId : UUID) (hr : w'.RequestAt location runId) : False :=
      hk runId (hr.back hinv hplaces.1.record hlog hkeeps)
    obtain ⟨e₀, r₀, -, ⟨pc', -, -, rfl⟩ | ⟨-, -, rfl⟩⟩ := hcases
    · exact hno
    · exact fun runId hr => (hno runId hr).elim
  | commit location outcome => rcases hcases with ⟨-, rfl⟩ | ⟨-, rfl⟩ <;> trivial
  | close =>
    obtain ⟨-, rfl⟩ := hcases
    trivial

end Programs

theorem requests_layer {x : External} (hx : x.Codecs) : Layer (requests x) (groundwork x) x where
  start := fun _ task _ => by cases task <;> trivial
  failing := by
    intro _ l _
    cases l with
    | reconcile worker runId pc => cases pc <;> trivial
    | _ => trivial
  refl := fun _ _ => trivial
  step := by
    intro p w i l e l' w' hs ha ⟨_, _, hconf, hcat, horigins, hc, _⟩ ⟨hplaces, _, hconfigures, _, _, hknows, hl⟩
      ⟨⟨hlog, _, _⟩, ⟨hkeeps, _⟩, _, hregisters, _⟩ hinv hk
    obtain ⟨hal, -⟩ := Proc.knows_step hs hknows hl ha
    have hreleases (id : UUID) (row : ModelReleaseRow) (hrow : w.tables.releases.find? id = some row) :
        (w'.tables.releases.find? id).isSome := by
      obtain ⟨row', hrow', -⟩ := hregisters.releases id row hrow
      exact Option.isSome_iff_exists.mpr ⟨row', hrow'⟩
    refine ⟨⟨hinv.sent_step hs hl ha hkeeps, fun tp record hmem id hsource => ?_, fun id row hrow =>
      hinv.referred_step hs hk hal ha hreleases hrow, fun location outcome hm =>
      hinv.answered_step hs hk hplaces ha hlog hkeeps hm⟩, ?_, trivial⟩
    · rw [(inFlight_apply ha).1] at hmem
      exact (hinv.stored tp record hmem id hsource).mono hkeeps
    · cases l with
      | idle | unwinding =>
        obtain ⟨-, rfl⟩ := Prod.mk.inj hs
        trivial
      | submit call pc =>
        obtain ⟨rfl, rfl⟩ := Prod.mk.inj hs
        exact (SubmitRun.checked_step rfl hk ha).proc (Q := fun l => l.Answers w') (fun _ h => h) trivial
      | consume topic pc =>
        obtain ⟨rfl, rfl⟩ := Prod.mk.inj hs
        exact (Consumer.answers_step hx rfl hk hplaces hconfigures hl.valid hinv hc hcat hconf horigins hlog
          hkeeps).proc (Q := fun l => l.Answers w') (fun _ h => h) trivial
      | _ =>
        obtain ⟨-, rfl⟩ := Prod.mk.inj hs
        exact (Progress.all_true _).proc (Q := fun l => l.Answers w') (fun _ _ => trivial) trivial

theorem mem_grown {log : TopicPartition → List Record} {tp tp' : TopicPartition} {record added : Record}
    (h : record ∈ Function.update log tp' (log tp' ++ [added]) tp) : record ∈ log tp ∨ record = added := by
  by_cases htp : tp = tp'
  · subst htp
    rw [Function.update_self] at h
    exact (List.mem_append.mp h).imp_right List.mem_singleton.mp
  · rw [Function.update_of_ne htp] at h
    exact .inl h

/-- What others do adds to the logs only what producers sent, and records of no outbox row. -/
theorem Publications.event {x : External} {w w' : World} {ev : External.Event} (h : Publications x w)
    (he : w.event ev = some w') : Publications x w' := by
  obtain ⟨hlog, -⟩ := World.event_offsets he
  obtain ⟨users, hpg⟩ := World.event_pg he
  have houtbox : w'.tables.outbox = w.tables.outbox := by rw [World.tables, hpg]
  have hkeeps : w.tables.KeepsEvents w'.tables := .of_some fun _ _ hrow => houtbox ▸ hrow
  refine ⟨?_, ?_, by simpa only [World.tables, hpg] using h.referred, fun location outcome hm => ?_⟩
  · intro record hmem
    have hsame : w'.broker.inFlight = w.broker.inFlight := by
      cases ev with
      | updateJob key job =>
        obtain ⟨old, -, rfl⟩ := Option.map_eq_some_iff.mp he
        rfl
      | createJob key job =>
        obtain ⟨-, rfl⟩ := create_apply he
        rfl
      | deliver sent partition =>
        obtain ⟨record, -, rfl⟩ := Option.map_eq_some_iff.mp he
        rfl
      | addUser | deleteJob | append | revoke =>
        obtain rfl := Option.some.inj he
        rfl
    exact (h.sent record (hsame ▸ hmem)).mono hkeeps
  · intro tp record hmem id hsource
    have hadded : record ∈ w.broker.log tp ∨ record.source = none ∨
        ∃ sent ∈ w.broker.inFlight, record = ⟨sent.message, some sent.event⟩ := by
      cases ev with
      | updateJob key job =>
        obtain ⟨old, -, rfl⟩ := Option.map_eq_some_iff.mp he
        exact .inl hmem
      | createJob key job =>
        obtain ⟨-, rfl⟩ := create_apply he
        exact .inl hmem
      | addUser | deleteJob | revoke =>
        obtain rfl := Option.some.inj he
        exact .inl hmem
      | append tp' message =>
        obtain rfl := Option.some.inj he
        have hgrown : record ∈ w.broker.log tp ∨ record = ⟨message, none⟩ := mem_grown hmem
        exact hgrown.imp_right fun hadded => .inl (congrArg Record.source hadded)
      | deliver n partition =>
        obtain ⟨sent, hsent, rfl⟩ := Option.map_eq_some_iff.mp he
        have hgrown : record ∈ w.broker.log tp ∨ record = ⟨sent.message, some sent.event⟩ := mem_grown hmem
        exact hgrown.imp_right fun hadded => .inr ⟨sent, List.mem_of_getElem? hsent, hadded⟩
    rcases hadded with hold | hnone | ⟨sent, hsent, rfl⟩
    · exact (h.stored tp record hold id hsource).mono hkeeps
    · cases (hnone.symm.trans hsource)
    · obtain rfl := Option.some.inj hsource
      exact (h.sent sent hsent).mono hkeeps
  · rw [World.event_history he] at hm
    obtain ⟨hrecord, houtcome⟩ := h.answered location outcome hm
    obtain ⟨record, hrecord'⟩ := Option.isSome_iff_exists.mp hrecord
    exact ⟨Option.isSome_iff_exists.mpr ⟨record, World.recordAt_mono hrecord' hlog⟩,
      fun runId hr => houtcome runId (hr.back h hrecord hlog hkeeps)⟩

theorem requests_proof {x : External} (hx : x.Codecs) :
    (requests x).Proof (groundwork x) (platform x) fun _ _ => True where
  act := by
    intro p a w l w' l' _ ha hinv hb hg hc hk
    exact (requests_layer hx).act (fun _ _ _ => ⟨trivial, trivial, trivial, trivial, trivial, trivial, .of_nothing rfl rfl⟩)
      ha hinv hb hg hc hk
  stable := by
    intro p q l w w' _ _ ⟨hplaces, _⟩ ⟨⟨hlog, _, _⟩, ⟨hkeeps, _⟩, _, hregisters, _⟩ _ hinv hk
    refine hk.later hplaces hinv hlog hkeeps fun id row hrow => ?_
    obtain ⟨row', hrow', -⟩ := hregisters.releases id row hrow
    exact Option.isSome_iff_exists.mpr ⟨row', hrow'⟩
  env := by
    intro ev w w' _ he _ hc
    obtain ⟨hlog, -⟩ := World.event_offsets he
    obtain ⟨users, hpg⟩ := World.event_pg he
    refine ⟨hc.event he, fun q l ⟨hplaces, _⟩ hk => hk.later hplaces hc hlog ?_ fun id row hrow => ?_⟩
    · exact .of_some fun _ _ hrow => by simpa only [World.tables, hpg] using hrow
    · simpa only [World.tables, hpg] using Option.isSome_iff_exists.mpr ⟨row, hrow⟩

theorem requests_established {x : External} (hx : x.Codecs) :
    ((requests x).both (groundwork x)).Established (platform x) (fun _ _ => True) initial := by
  refine (requests_proof hx).established (groundwork_established x) ⟨⟨?_, ?_, ?_, ?_⟩, fun _ => trivial⟩
  · exact fun _ h => absurd h List.not_mem_nil
  · exact fun _ _ h => absurd h List.not_mem_nil
  · exact fun _ _ h => (by cases h)
  · exact fun _ _ h => absurd h List.not_mem_nil

section Runs
variable {x : External} {c : Config Pid World Proc}

/-- Every request the platform publishes is understood. A record that was sent for an outbox row is that row's
encoding; it decodes to the row's run, which exists, if the row is a request, and is rejected otherwise. A request is
only ever answered by an acceptance: no consumer rejects it, and one that accepts it works on its run and, database
errors aside, goes on until it returns one of the three outcomes. -/
theorem published_requests (hx : x.Codecs) (h : Reached x c) :
    (∀ tp, ∀ record ∈ c.shared.broker.log tp, ∀ id, record.source = some id → ∃ event offset,
      c.shared.tables.outbox.find? id = some event ∧ record.message = encodeEvent x.isoformat event offset ∧
      (event.eventType = "run.requested" → x.decoders.decodeRequest record.message = .run event.runId ∧
        (c.shared.tables.runs.find? event.runId).isSome) ∧
      (event.eventType ≠ "run.requested" →
        ∃ rejection, x.decoders.decodeRequest record.message = .rejection rejection)) ∧
    (∀ location outcome runId, Entry.handled location outcome ∈ c.shared.history →
      c.shared.RequestAt location runId → outcome ∈ ["accepted", "failed-run", "unchanged"]) ∧
    ∀ p topic location runId, c.shared.RequestAt location runId →
      (∀ rejection pc, c.procs p ≠ .consume topic (.reject location rejection pc)) ∧
      (∀ message, c.procs p = .consume topic (.decode location message) → ∀ i,
        Consumer.step x.decoders topic p c.shared i (.decode location message) =
          (.read, .running (.accept location runId .readRelease))) ∧
      ∀ id pc, c.procs p = .consume topic (.accept location id pc) → id = runId ∧
        ∀ i e r, AcceptRun.step id c.shared i pc = (e, r) →
          (∃ pc', r = .running pc' ∧ AcceptRun.left pc' < AcceptRun.left pc) ∨
            ∃ outcome, r = .returned outcome ∧ outcome ∈ ["accepted", "failed-run", "unchanged"] := by
  obtain ⟨⟨hinv, _, _, hconf, hcat, horigins, hc, _⟩, hall⟩ := (requests_established hx).holds c h
  refine ⟨fun tp record hmem id hsource => ?_, fun location outcome runId hm hr =>
    (hinv.answered location outcome hm).2 runId hr, fun p topic location runId hr => ⟨?_, ?_, ?_⟩⟩
  · obtain ⟨event, offset, hevent, htype, hmessage⟩ := hinv.stored tp record hmem id hsource
    have hdecode : x.decoders.decodeRequest (encodeEvent x.isoformat event offset) = _ :=
      hx.decodeRequest_encodeEvent htype
    rw [← hmessage] at hdecode
    refine ⟨event, offset, hevent, hmessage, fun hrequest => ⟨?_, ?_⟩,
      fun hother => ⟨⟨"unsupported_event", "Expected run.requested."⟩, ?_⟩⟩
    · rw [hdecode, if_pos hrequest]
    · exact hc.events event (Table.mem_of_find? hevent)
    · rw [hdecode, if_neg hother]
  · intro rejection pc hp
    have hk := (hall p).1
    rw [hp] at hk
    exact hk runId hr
  · intro message hp i
    have hplaces := (hall p).2.1
    rw [hp] at hplaces
    obtain ⟨-, record, hrecord, rfl⟩ := hplaces
    obtain ⟨record', hrecord', hdecode⟩ := hinv.decodes hx hr
    obtain rfl := Option.some.inj (hrecord'.symm.trans hrecord)
    simp only [Consumer.step, hdecode]
  · intro id pc hp
    obtain ⟨hk, hplaces, _, hconfigures, _, _, _, hl⟩ := hall p
    rw [hp] at hk hplaces hconfigures hl
    obtain ⟨-, -, record, hrecord, hdecode⟩ := hplaces
    obtain ⟨record', hrecord', hdecode'⟩ := hinv.decodes hx hr
    obtain rfl := Option.some.inj (hrecord'.symm.trans hrecord)
    obtain rfl : id = runId := Request.run.inj (hdecode.symm.trans hdecode')
    refine ⟨rfl, fun i e r hs => ?_⟩
    rcases AcceptRun.goes_on hs hk (hr.exists hc) hconfigures hl.valid hinv.referred hcat hconf horigins with
      ⟨pc', hr, hlt, -⟩ | hreturned
    · exact .inl ⟨pc', hr, hlt⟩
    · exact .inr hreturned

theorem published_requests_demo : ∃ c r, Demo.row c = some r ∧ r.acceptedAt.isSome ∧
    ∀ tp, ∀ record ∈ c.shared.broker.log tp, ∀ id, record.source = some id → ∃ event offset,
      c.shared.tables.outbox.find? id = some event ∧
        record.message = encodeEvent Demo.isoformat event offset := by
  obtain ⟨c, r, hc, hr, -, ha, -⟩ := Demo.accepted
  refine ⟨c, r, hr, ha, fun tp record hmem id hsource => ?_⟩
  obtain ⟨event, offset, hevent, hmessage, -⟩ :=
    (published_requests Demo.codecs (Demo.reached hc)).1 tp record hmem id hsource
  exact ⟨event, offset, hevent, hmessage⟩

end Runs
end Mic3
