import Mic3.Emissions
import Mic3.RunHistory

/-! Kafka's offsets and PostgreSQL's outcomes: a consumer commits an offset only after the outcome of its record, and
works on a record only when all records before it have theirs. -/
namespace Mic3
open Relational Interleaving

/-- The run was accepted or has left the queue. -/
def Run.Decided (row : Run) : Prop := row.acceptedAt.isSome ∨ row.status ≠ .queued

def RecordLocation.tp (location : RecordLocation) : TopicPartition := (location.topic, location.partition)

def World.recordAt (w : World) (location : RecordLocation) : Option Record :=
  (w.broker.log location.tp)[location.offset]?

/-- The record asks for a run that is decided. -/
def World.DecidedAt (d : Decoders) (w : World) (location : RecordLocation) : Prop :=
  ∃ record id row, w.recordAt location = some record ∧ d.decodeRequest record.message = .run id ∧
    w.tables.runs.find? id = some row ∧ row.Decided

/-- The record has a durable outcome. -/
def World.SettledAt (d : Decoders) (w : World) (location : RecordLocation) : Prop :=
  (w.recordAt location).isSome ∧ ((w.tables.rejected.find? location).isSome ∨ w.DecidedAt d location)

def World.SettledBelow (d : Decoders) (w : World) (tp : TopicPartition) (n : ℕ) : Prop :=
  ∀ offset < n, w.SettledAt d ⟨tp.1, tp.2, offset⟩

/-- No offset is committed before its outcome, and what was decided stays decided. -/
structure Durable (d : Decoders) (w : World) : Prop where
  committed : ∀ tp, w.SettledBelow d tp (w.broker.committed tp)
  handled : ∀ location outcome, Entry.handled location outcome ∈ w.history → outcome ≠ "rejected" →
    w.DecidedAt d location

/-- What an acceptance knows of its run. -/
def AcceptRun.Decides (runId : UUID) : Pc → Prop
  | .loadRelease _ row => row.id = runId ∧ ¬ row.Decided
  | .commit _ u outcome entries => u.loaded.id = runId ∧ u.row.Decided ∧ outcome ≠ "rejected" ∧
      (∀ entry ∈ entries, ∃ id invocation, entry = .accepted id invocation) ∧
      (u = .clean u.loaded ∧ outcome = "unchanged" ∧ entries = [] ∨ ¬ u.loaded.Decided)
  | _ => True

/-- What a rejection knows of its row. -/
def Consumer.Rejects (w : World) (location : RecordLocation) : RejectPc → Prop
  | .insert => True
  | .commit none => (w.tables.rejected.find? location).isSome
  | .commit (some message) => message.location = location

/-- A consumer works on a record: every record before it is settled, and so is whatever else was polled. -/
structure Consumer.InHand (d : Decoders) (p : Pid) (w : World) (location : RecordLocation) : Prop where
  below : w.SettledBelow d location.tp location.offset
  record : (w.recordAt location).isSome
  position : w.broker.owner location.tp = some p → w.broker.position location.tp = location.offset + 1
  others : ∀ tp, tp ≠ location.tp → w.broker.owner tp = some p → w.SettledBelow d tp (w.broker.position tp)

/-- Where a consumer stands in its partitions. -/
def Consumer.Places (d : Decoders) (p : Pid) (w : World) : Pc → Prop
  | .poll => ∀ tp, w.broker.owner tp = some p → w.SettledBelow d tp (w.broker.position tp)
  | .decode location message => InHand d p w location ∧ ∃ record, w.recordAt location = some record ∧
      record.message = message
  | .accept location runId pc => InHand d p w location ∧ AcceptRun.Decides runId pc ∧
      ∃ record, w.recordAt location = some record ∧ d.decodeRequest record.message = .run runId
  | .reject location _ pc => InHand d p w location ∧ Rejects w location pc
  | .commit location _ => InHand d p w location ∧ w.SettledAt d location
  | .close => True

/-- Only a consumer has partitions, and whoever's connections go. -/
def Proc.Places (d : Decoders) (p : Pid) (w : World) : Proc → Prop
  | .consume _ pc => Consumer.Places d p w pc
  | .accept runId pc => AcceptRun.Decides runId pc ∧ ∀ tp, w.broker.owner tp ≠ some p
  | .unwinding => True
  | _ => ∀ tp, w.broker.owner tp ≠ some p

/-- Logs only grow, rejections stay, and nobody moves another's consumer. -/
structure KeepsPlaces (p : Pid) (w w' : World) : Prop where
  log : ∀ tp, w.broker.log tp <+: w'.broker.log tp
  rejected : ∀ location row, w.tables.rejected.find? location = some row →
    w'.tables.rejected.find? location = some row
  places : ∀ q tp, q ≠ p → w'.broker.owner tp = some q →
    w.broker.owner tp = some q ∧ w'.broker.position tp = w.broker.position tp

def offsets (d : Decoders) : Contract Pid World Proc where
  inv := Durable d
  assert := fun p l w => l.Places d p w
  guarantee := KeepsPlaces

section Settling
variable {d : Decoders} {p q : Pid} {w w' : World} {location : RecordLocation} {tp : TopicPartition} {n : ℕ}

theorem World.recordAt_mono {record : Record} (h : w.recordAt location = some record)
    (hlog : ∀ tp, w.broker.log tp <+: w'.broker.log tp) : w'.recordAt location = some record := by
  obtain ⟨rest, hrest⟩ := hlog location.tp
  obtain ⟨hlt, -⟩ := List.getElem?_eq_some_iff.mp h
  rw [recordAt, ← hrest, List.getElem?_append_left hlt]
  exact h

theorem Run.Decided.advance {t t' : Tables} {id : UUID} {row : Run} (h : row.Decided)
    (hrow : t.runs.find? id = some row) (hadv : t.Advances t') (hc : t.Consistent) :
    ∃ row', t'.runs.find? id = some row' ∧ row'.Decided := by
  obtain ⟨row', hrow', hcont, hmoves, -⟩ := hadv.run hc hrow
  refine ⟨row', hrow', ?_⟩
  rcases h with haccepted | hstatus
  · obtain ⟨time, htime⟩ := Option.isSome_iff_exists.mp haccepted
    exact .inl (Option.isSome_iff_exists.mpr ⟨time, hcont.acceptedAt time htime⟩)
  · exact .inr (hmoves.ne_queued hstatus)

/-- What a record's outcome survives. -/
structure Later (w w' : World) : Prop where
  log : ∀ tp, w.broker.log tp <+: w'.broker.log tp
  rejected : ∀ location row, w.tables.rejected.find? location = some row →
    w'.tables.rejected.find? location = some row
  advances : w.tables.Advances w'.tables
  consistent : w.tables.Consistent

theorem World.DecidedAt.later (h : w.DecidedAt d location) (hl : Later w w') : w'.DecidedAt d location := by
  obtain ⟨record, id, row, hrecord, hdecode, hrow, hdecided⟩ := h
  obtain ⟨row', hrow', hdecided'⟩ := hdecided.advance hrow hl.advances hl.consistent
  exact ⟨record, id, row', World.recordAt_mono hrecord hl.log, hdecode, hrow', hdecided'⟩

theorem World.recordAt_later (h : (w.recordAt location).isSome) (hl : Later w w') : (w'.recordAt location).isSome := by
  obtain ⟨record, hrecord⟩ := Option.isSome_iff_exists.mp h
  exact Option.isSome_iff_exists.mpr ⟨record, World.recordAt_mono hrecord hl.log⟩

theorem World.rejected_later (h : (w.tables.rejected.find? location).isSome) (hl : Later w w') :
    (w'.tables.rejected.find? location).isSome := by
  obtain ⟨row, hrow⟩ := Option.isSome_iff_exists.mp h
  exact Option.isSome_iff_exists.mpr ⟨row, hl.rejected location row hrow⟩

theorem World.SettledAt.later (h : w.SettledAt d location) (hl : Later w w') : w'.SettledAt d location :=
  ⟨World.recordAt_later h.1 hl, h.2.imp (World.rejected_later · hl) (·.later hl)⟩

theorem World.SettledBelow.later (h : w.SettledBelow d tp n) (hl : Later w w') : w'.SettledBelow d tp n :=
  fun offset hlt => (h offset hlt).later hl

theorem World.SettledBelow.succ (h : w.SettledBelow d location.tp location.offset) (hs : w.SettledAt d location) :
    w.SettledBelow d location.tp (location.offset + 1) := by
  intro offset hlt
  by_cases heq : offset = location.offset
  · subst heq
    exact hs
  · exact h offset (by omega)

/-- A record that is worked on stays so while its consumer stays where it is. -/
theorem Consumer.InHand.later (h : InHand d p w location) (hl : Later w w')
    (hplaces : ∀ tp, w'.broker.owner tp = some p →
      w.broker.owner tp = some p ∧ w'.broker.position tp = w.broker.position tp) : InHand d p w' location where
  below := h.below.later hl
  record := World.recordAt_later h.record hl
  position := by
    intro howner
    obtain ⟨howner, hposition⟩ := hplaces _ howner
    exact hposition.trans (h.position howner)
  others := by
    intro tp hne howner
    obtain ⟨howner, hposition⟩ := hplaces tp howner
    rw [hposition]
    exact (h.others tp hne howner).later hl

theorem Consumer.Places.later {pc : Consumer.Pc} (h : Places d p w pc) (hl : Later w w')
    (hplaces : ∀ tp, w'.broker.owner tp = some p →
      w.broker.owner tp = some p ∧ w'.broker.position tp = w.broker.position tp) : Places d p w' pc := by
  cases pc with
  | poll =>
    intro tp howner
    obtain ⟨howner, hposition⟩ := hplaces tp howner
    rw [hposition]
    exact (h tp howner).later hl
  | decode location message =>
    obtain ⟨hin, record, hrecord, hmessage⟩ := h
    exact ⟨hin.later hl hplaces, record, World.recordAt_mono hrecord hl.log, hmessage⟩
  | accept location runId pc =>
    obtain ⟨hin, hdecides, record, hrecord, hdecode⟩ := h
    exact ⟨hin.later hl hplaces, hdecides, record, World.recordAt_mono hrecord hl.log, hdecode⟩
  | reject location rejection pc =>
    refine ⟨h.1.later hl hplaces, ?_⟩
    cases pc with
    | insert => trivial
    | commit message =>
      cases message with
      | none => exact World.rejected_later h.2 hl
      | some message => exact h.2
  | commit location outcome => exact ⟨h.1.later hl hplaces, h.2.later hl⟩
  | close => trivial

theorem Proc.Places.later {l : Proc} (h : l.Places d p w) (hl : Later w w')
    (hplaces : ∀ tp, w'.broker.owner tp = some p →
      w.broker.owner tp = some p ∧ w'.broker.position tp = w.broker.position tp) : l.Places d p w' := by
  cases l with
  | consume topic pc => exact Consumer.Places.later h hl hplaces
  | accept runId pc => exact ⟨h.1, fun tp howner => h.2 tp (hplaces tp howner).1⟩
  | unwinding => trivial
  | _ => exact fun tp howner => h tp (hplaces tp howner).1

end Settling

section Effects
variable {d : Decoders} {p q : Pid} {w w' : World} {e : Effect} {tp : TopicPartition}

/-- What an effect does to who is where in the partitions. -/
theorem keepsPlaces_apply (ha : w.apply p e = some w') : KeepsPlaces p w w' := by
  have hsame (hbroker : w'.broker = w.broker) (hrejected : ∀ location row, w.tables.rejected.find? location = some row →
      w'.tables.rejected.find? location = some row) : KeepsPlaces p w w' := by
    refine ⟨fun tp => hbroker ▸ List.prefix_rfl, hrejected, fun q tp _ howner => ?_⟩
    rw [hbroker] at howner ⊢
    exact ⟨howner, rfl⟩
  have hclosed {q : Pid} {tp : TopicPartition}
      (howner : (if w.broker.owner tp = some p then none else w.broker.owner tp) = some q) :
      w.broker.owner tp = some q := by
    split at howner
    · contradiction
    · exact howner
  cases e with
  | lock k =>
    obtain ⟨locks, -, rfl⟩ := lock_apply ha
    exact hsame rfl fun _ _ h => h
  | share k =>
    obtain ⟨locks, -, rfl⟩ := share_apply ha
    exact hsame rfl fun _ _ h => h
  | sessionLock key =>
    obtain ⟨-, rfl⟩ := sessionLock_apply ha
    exact hsame rfl fun _ _ h => h
  | createJob key job =>
    obtain ⟨-, rfl⟩ := create_apply ha
    exact hsame rfl fun _ _ h => h
  | commit change entries =>
    obtain ⟨tables, ht, rfl⟩ := commit_apply ha
    refine hsame rfl fun location row hrow => ?_
    cases change with
    | nothing => exact Change.nothing_apply ht ▸ hrow
    | submit row event =>
      obtain ⟨runs, outbox, -, -, rfl⟩ := Change.submit_apply ht
      exact hrow
    | outcome u =>
      obtain ⟨artifacts, outbox, -, -, rfl⟩ := Change.outcome_apply ht
      exact hrow
    | register r =>
      obtain ⟨models, releases, -, -, rfl⟩ := Change.register_apply ht
      exact hrow
    | publish marks => exact Change.publish_apply ht ▸ hrow
    | reject message =>
      obtain ⟨rejected, hrejected, rfl⟩ := Change.reject_apply ht
      exact Table.find?_insert_of_some hrejected hrow
  | read | rollback | sessionUnlock =>
    obtain rfl := Option.some.inj ha
    exact hsame rfl fun _ _ h => h
  | produce record =>
    obtain rfl := Option.some.inj ha
    exact ⟨fun _ => List.prefix_rfl, fun _ _ h => h, fun _ _ _ howner => ⟨howner, rfl⟩⟩
  | acknowledge event =>
    obtain ⟨-, h⟩ := Option.ite_none_right_eq_some.mp ha
    obtain rfl := Option.some.inj h
    exact hsame rfl fun _ _ h => h
  | commitOffset tp offset =>
    obtain ⟨-, h⟩ := Option.ite_none_right_eq_some.mp ha
    obtain rfl := Option.some.inj h
    exact ⟨fun _ => List.prefix_rfl, fun _ _ h => h, fun _ _ _ howner => ⟨howner, rfl⟩⟩
  | assign tp =>
    obtain ⟨-, h⟩ := Option.ite_none_right_eq_some.mp ha
    obtain rfl := Option.some.inj h
    refine ⟨fun _ => List.prefix_rfl, fun _ _ h => h, fun q tp' hq howner => ?_⟩
    have hne : tp' ≠ tp := by
      rintro rfl
      have hown : some p = some q := (Function.update_self tp' (some p) w.broker.owner).symm.trans howner
      exact hq (Option.some.inj hown).symm
    have hold : w.broker.owner tp' = some q := (Function.update_of_ne hne (some p) w.broker.owner).symm.trans howner
    exact ⟨hold, Function.update_of_ne hne ..⟩
  | poll tp =>
    obtain ⟨hown, h⟩ := Option.ite_none_right_eq_some.mp ha
    obtain rfl := Option.some.inj h
    refine ⟨fun _ => List.prefix_rfl, fun _ _ h => h, fun q tp' hq howner => ?_⟩
    have hne : tp' ≠ tp := by
      rintro rfl
      exact hq (Option.some.inj (howner.symm.trans hown))
    exact ⟨howner, Function.update_of_ne hne ..⟩
  | closeConsumer =>
    obtain rfl := Option.some.inj ha
    exact ⟨fun _ => List.prefix_rfl, fun _ _ h => h, fun _ _ _ howner => ⟨hclosed howner, rfl⟩⟩
  | disconnect =>
    obtain rfl := Option.some.inj ha
    exact ⟨fun _ => List.prefix_rfl, fun _ _ h => h, fun _ _ _ howner => ⟨hclosed howner, rfl⟩⟩

/-- Statements of a transaction leave the broker alone. -/
theorem broker_apply (he : e.quiet = true ∨ e.commits = true) (ha : w.apply p e = some w') : w'.broker = w.broker := by
  cases e with
  | lock k =>
    obtain ⟨locks, -, rfl⟩ := lock_apply ha
    rfl
  | share k =>
    obtain ⟨locks, -, rfl⟩ := share_apply ha
    rfl
  | sessionLock key =>
    obtain ⟨-, rfl⟩ := sessionLock_apply ha
    rfl
  | commit change entries =>
    obtain ⟨tables, -, rfl⟩ := commit_apply ha
    rfl
  | read | rollback | sessionUnlock =>
    obtain rfl := Option.some.inj ha
    rfl
  | _ => exact absurd he (by simp [Effect.quiet, Effect.commits])

/-- Partitions are only assigned to those who ask. -/
theorem owner_apply (hne : ∀ tp, e ≠ .assign tp) (ha : w.apply p e = some w') (howner : w'.broker.owner tp = some p) :
    w.broker.owner tp = some p := by
  by_cases hbroker : e.quiet = true ∨ e.commits = true
  · rwa [broker_apply hbroker ha] at howner
  have hclosed (w : World) : (w.closeConsumer p).broker.owner tp ≠ some p := by
    change (if w.broker.owner tp = some p then none else w.broker.owner tp) ≠ some p
    split
    · intro he
      cases he
    · assumption
  cases e with
  | assign tp' => exact absurd rfl (hne tp')
  | createJob key job =>
    obtain ⟨-, rfl⟩ := create_apply ha
    exact howner
  | produce =>
    obtain rfl := Option.some.inj ha
    exact howner
  | acknowledge | commitOffset | poll =>
    obtain ⟨-, h⟩ := Option.ite_none_right_eq_some.mp ha
    obtain rfl := Option.some.inj h
    exact howner
  | closeConsumer =>
    obtain rfl := Option.some.inj ha
    exact absurd howner (hclosed w)
  | disconnect =>
    obtain rfl := Option.some.inj ha
    exact absurd howner (hclosed (w.endTransaction p))
  | _ => exact absurd hbroker (by simp [Effect.quiet, Effect.commits])

theorem committed_apply (ha : w.apply p e = some w') :
    w'.broker.committed = w.broker.committed ∨ ∃ tp offset, e = .commitOffset tp offset ∧
      w'.broker.committed = Function.update w.broker.committed tp offset := by
  by_cases hbroker : e.quiet = true ∨ e.commits = true
  · exact .inl (congrArg Broker.committed (broker_apply hbroker ha))
  cases e with
  | commitOffset tp offset =>
    obtain ⟨-, h⟩ := Option.ite_none_right_eq_some.mp ha
    obtain rfl := Option.some.inj h
    exact .inr ⟨tp, offset, rfl, rfl⟩
  | createJob key job =>
    obtain ⟨-, rfl⟩ := create_apply ha
    exact .inl rfl
  | acknowledge | assign | poll =>
    obtain ⟨-, h⟩ := Option.ite_none_right_eq_some.mp ha
    obtain rfl := Option.some.inj h
    exact .inl rfl
  | produce | closeConsumer | disconnect =>
    obtain rfl := Option.some.inj ha
    exact .inl rfl
  | _ => exact absurd hbroker (by simp [Effect.quiet, Effect.commits])

end Effects

/-- What others do to the logs and to who consumes them. -/
theorem World.event_offsets {w w' : World} {ev : External.Event} (h : w.event ev = some w') :
    (∀ tp, w.broker.log tp <+: w'.broker.log tp) ∧ w'.broker.committed = w.broker.committed ∧
      ∀ q tp, w'.broker.owner tp = some q → w.broker.owner tp = some q ∧ w'.broker.position tp = w.broker.position tp := by
  have hgrows (tp tp' : TopicPartition) (record : Record) :
      w.broker.log tp <+: Function.update w.broker.log tp' (w.broker.log tp' ++ [record]) tp := by
    by_cases htp : tp = tp'
    · subst htp
      rw [Function.update_self]
      exact List.prefix_append _ _
    · have hsame := Function.update_of_ne htp (w.broker.log tp' ++ [record]) w.broker.log
      exact hsame ▸ List.prefix_rfl
  cases ev with
  | updateJob key job =>
    obtain ⟨old, -, rfl⟩ := Option.map_eq_some_iff.mp h
    exact ⟨fun _ => List.prefix_rfl, rfl, fun _ _ howner => ⟨howner, rfl⟩⟩
  | createJob key job =>
    obtain ⟨-, rfl⟩ := create_apply h
    exact ⟨fun _ => List.prefix_rfl, rfl, fun _ _ howner => ⟨howner, rfl⟩⟩
  | deliver sent partition =>
    obtain ⟨record, -, rfl⟩ := Option.map_eq_some_iff.mp h
    exact ⟨fun tp => hgrows tp _ _, rfl, fun _ _ howner => ⟨howner, rfl⟩⟩
  | append tp message =>
    obtain rfl := Option.some.inj h
    exact ⟨fun tp' => hgrows tp' _ _, rfl, fun _ _ howner => ⟨howner, rfl⟩⟩
  | addUser | deleteJob =>
    obtain rfl := Option.some.inj h
    exact ⟨fun _ => List.prefix_rfl, rfl, fun _ _ howner => ⟨howner, rfl⟩⟩
  | revoke tp =>
    obtain rfl := Option.some.inj h
    refine ⟨fun _ => List.prefix_rfl, rfl, fun q tp' howner => ?_⟩
    by_cases htp : tp' = tp
    · subst htp
      cases ((Function.update_self tp' none w.broker.owner).symm.trans howner)
    · exact ⟨(Function.update_of_ne htp none w.broker.owner).symm.trans howner, rfl⟩

theorem World.event_rejected {w w' : World} {ev : External.Event} (h : w.event ev = some w')
    (location : RecordLocation) (row : RejectedMessage) (hrow : w.tables.rejected.find? location = some row) :
    w'.tables.rejected.find? location = some row := by
  obtain ⟨users, hpg⟩ := World.event_pg h
  simpa only [World.tables, hpg] using hrow

section Programs
variable {d : Decoders} {x : External} {p : Pid} {w w' : World} {i : Input} {e : Effect} {l l' : Proc} {runId : UUID}

theorem AcceptRun.saveOutcome_decided {row : Run} (hq : row.status = .queued) (compatible : Bool) (now : Time)
    (defaults : Defaults) : (saveOutcome (.clean row) (outcome row compatible now) defaults).row.Decided := by
  cases compatible with
  | true => exact .inl rfl
  | false =>
    right
    have hopen : row.status.terminal = false := by rw [hq]; rfl
    simp [saveOutcome, outcome, finishRow, UnitOfWork.clean, hopen, truthy]

theorem AcceptRun.decides_step {pc : AcceptRun.Pc} {r : Progress AcceptRun.Pc String}
    (hs : step runId w i pc = (e, r)) (hk : Decides runId pc) : r.All (Decides runId) := by
  rcases step_cases hs with ⟨-, err, rfl⟩ | hc
  · trivial
  cases pc with
  | readRelease =>
    obtain ⟨row, -, -, rfl⟩ := hc
    trivial
  | lockRelease releaseId =>
    obtain ⟨release, -, -, rfl⟩ := hc
    trivial
  | lockRun release =>
    obtain ⟨row, hrow, -, ⟨hdecided, rfl⟩ | ⟨haccepted, hq, rfl⟩⟩ := hc
    · exact ⟨Table.key_of_find? hrow, hdecided, by decide, List.forall_mem_nil _, .inl ⟨rfl, rfl, rfl⟩⟩
    · refine ⟨Table.key_of_find? hrow, ?_⟩
      rintro (hsome | hne)
      · rw [haccepted] at hsome
        contradiction
      · exact hne hq
  | loadRelease release row =>
    obtain ⟨pc', hd, -, rfl⟩ := hc
    have hq : row.status = .queued := not_not.mp fun hne => hk.2 (.inr hne)
    obtain ⟨definition, -, ⟨invocation, -, -, rfl⟩ | ⟨-, rfl⟩⟩ := decide_ok hd
    · refine ⟨(congrArg Run.id (saveOutcome_loaded ..)).trans hk.1, saveOutcome_decided hq .., by decide,
        List.forall_mem_singleton.mpr ⟨row.id, invocation, rfl⟩, .inr ?_⟩
      rw [saveOutcome_loaded]
      exact hk.2
    · refine ⟨(congrArg Run.id (saveOutcome_loaded ..)).trans hk.1, saveOutcome_decided hq .., by decide,
        List.forall_mem_nil _, .inr ?_⟩
      rw [saveOutcome_loaded]
      exact hk.2
  | commit release u outcome entries =>
    obtain ⟨-, rfl⟩ := hc
    trivial

/-- The commit of an acceptance leaves its run decided. -/
theorem decided_commit {u : UnitOfWork} {entries : List Entry} (hdecided : u.row.Decided)
    (hal : (Effect.commit (.outcome u) entries).Allowed w.tables)
    (ha : w.apply p (.commit (.outcome u) entries) = some w') :
    ∃ row, w'.tables.runs.find? u.loaded.id = some row ∧ row.Decided := by
  obtain ⟨tables, ht, rfl⟩ := commit_apply ha
  exact ⟨u.row, (find?_outcome hal ht _).trans (if_pos rfl), hdecided⟩

theorem Consumer.places_step {topic : String} {pc : Consumer.Pc} {r : Progress Consumer.Pc Unit}
    (hs : step d topic p w i pc = (e, r)) (hk : Places d p w pc) (hinv : Durable d w) (hal : e.Allowed w.tables)
    (ha : w.apply p e = some w') (hl : Later w w') : (r.proc (.consume topic)).Places d p w' := by
  have hstay (he : e.quiet = true ∨ e.commits = true) (tp : TopicPartition) (howner : w'.broker.owner tp = some p) :
      w.broker.owner tp = some p ∧ w'.broker.position tp = w.broker.position tp := by
    rw [broker_apply he ha] at howner ⊢
    exact ⟨howner, rfl⟩
  have hc := step_cases hs
  cases pc with
  | poll =>
    rcases hc with ⟨rfl, rfl | rfl⟩ | ⟨tp, ⟨hnone, rfl, rfl⟩ | ⟨record, hown, hrecord, rfl, rfl⟩⟩
    · trivial
    · exact Places.later hk hl (hstay (.inl rfl))
    · -- A partition that was assigned is read from its committed offset on.
      obtain ⟨-, h⟩ := Option.ite_none_right_eq_some.mp ha
      obtain rfl := Option.some.inj h
      intro tp' howner
      by_cases htp : tp' = tp
      · subst htp
        have hposition : Function.update w.broker.position tp' (w.broker.committed tp') tp' = w.broker.committed tp' :=
          Function.update_self ..
        exact (hposition ▸ hinv.committed tp' : w.SettledBelow d tp' _)
      · have hposition : Function.update w.broker.position tp (w.broker.committed tp) tp' = w.broker.position tp' :=
          Function.update_of_ne htp ..
        have hold : w.broker.owner tp' = some p := (Function.update_of_ne htp (some p) w.broker.owner).symm.trans howner
        exact (hposition ▸ hk tp' hold : w.SettledBelow d tp' _)
    · obtain ⟨-, h⟩ := Option.ite_none_right_eq_some.mp ha
      obtain rfl := Option.some.inj h
      refine ⟨⟨hk tp hown, Option.isSome_iff_exists.mpr ⟨record, hrecord⟩, fun _ => Function.update_self ..,
        fun tp' hne howner => ?_⟩, record, hrecord, rfl⟩
      have hposition : Function.update w.broker.position tp (w.broker.position tp + 1) tp' = w.broker.position tp' :=
        Function.update_of_ne hne ..
      exact (hposition ▸ hk tp' howner : w.SettledBelow d tp' _)
  | decode location message =>
    obtain ⟨hin, record, hrecord, rfl⟩ := hk
    obtain ⟨rfl, hr⟩ := hc
    have hin' := hin.later hl (hstay (.inl rfl))
    rcases hr with ⟨runId, hdecode, rfl⟩ | ⟨rejection, -, rfl⟩
    · exact ⟨hin', trivial, record, World.recordAt_mono hrecord hl.log, hdecode⟩
    · exact ⟨hin', trivial⟩
  | accept location runId pc =>
    obtain ⟨hin, hdecides, record, hrecord, hdecode⟩ := hk
    obtain ⟨e₀, r₀, hs₀, hr⟩ := hc
    have hrecord' := World.recordAt_mono hrecord hl.log
    rcases AcceptRun.emits hs₀ with ⟨hquiet, hne⟩ | ⟨release, u, outcome, entries, rfl, rfl, rfl⟩
    · rcases hr with ⟨pc', rfl, rfl, rfl⟩ | ⟨outcome, h, -⟩ | ⟨message, -, rfl, rfl⟩ | ⟨err, -, -, rfl⟩
      · exact ⟨hin.later hl (hstay (.inl hquiet)), AcceptRun.decides_step hs₀ hdecides, record, hrecord', hdecode⟩
      · exact absurd h (hne outcome)
      · exact ⟨hin.later hl (hstay (.inl hquiet)), trivial⟩
      · trivial
    · rcases hr with ⟨pc', h, -⟩ | ⟨outcome', h, rfl, rfl⟩ | ⟨message, h, -⟩ | ⟨err, h, -⟩
      · contradiction
      · obtain ⟨hid, hdecided, -⟩ := hdecides
        obtain ⟨row, hrow, hdecided'⟩ := decided_commit hdecided hal ha
        exact ⟨hin.later hl (hstay (.inr rfl)), Option.isSome_iff_exists.mpr ⟨record, hrecord'⟩,
          .inr ⟨record, runId, row, hrecord', hdecode, hid ▸ hrow, hdecided'⟩⟩
      · contradiction
      · contradiction
  | reject location rejection pc =>
    obtain ⟨hin, hrejects⟩ := hk
    obtain ⟨e₀, r₀, hs₀, hr⟩ := hc
    have hc₀ := record_cases hs₀
    cases pc with
    | insert =>
      rcases hc₀ with ⟨hsome, rfl, rfl⟩ | ⟨-, rfl, rfl⟩
      · rcases hr with ⟨pc', h, rfl, rfl⟩ | ⟨h, -⟩
        · obtain rfl := Progress.running.inj h
          exact ⟨hin.later hl (hstay (.inl rfl)), World.rejected_later hsome hl⟩
        · contradiction
      · rcases hr with ⟨pc', h, rfl, rfl⟩ | ⟨h, -⟩
        · obtain rfl := Progress.running.inj h
          exact ⟨hin.later hl (hstay (.inl rfl)), rfl⟩
        · contradiction
    | commit message =>
      obtain ⟨rfl, rfl⟩ := hc₀
      rcases hr with ⟨pc', h, -⟩ | ⟨-, rfl, rfl⟩
      · contradiction
      · refine ⟨hin.later hl (hstay (.inr rfl)), World.recordAt_later hin.record hl, .inl ?_⟩
        cases message with
        | none => exact World.rejected_later hrejects hl
        | some message =>
          obtain ⟨tables, ht, rfl⟩ := commit_apply ha
          obtain ⟨rejected, hinsert, rfl⟩ := Change.reject_apply ht
          have hfind : rejected.find? location = some message :=
            (Table.find?_insert hinsert).trans (if_pos hrejects.symm)
          exact Option.isSome_iff_exists.mpr ⟨message, hfind⟩
  | commit location outcome =>
    obtain ⟨hin, hsettled⟩ := hk
    rcases hc with ⟨rfl, rfl⟩ | ⟨rfl, rfl⟩
    · trivial
    · obtain ⟨-, h⟩ := Option.ite_none_right_eq_some.mp ha
      obtain rfl := Option.some.inj h
      intro tp howner
      by_cases htp : tp = location.tp
      · subst htp
        have hposition := hin.position howner
        exact (hposition ▸ hin.below.succ hsettled : w.SettledBelow d location.tp (w.broker.position location.tp))
      · exact (hin.others tp htp howner : w.SettledBelow d tp (w.broker.position tp))
  | close =>
    obtain ⟨rfl, rfl⟩ := hc
    obtain rfl := Option.some.inj ha
    intro tp howner
    have howner : (if w.broker.owner tp = some p then none else w.broker.owner tp) = some p := howner
    split at howner <;> contradiction

/-- A commit says that a record was handled only after it was. -/
theorem Proc.Commits.handled {change : Change} {entries : List Entry} (h : l.Commits change entries)
    (hk : l.Places d p w) {location : RecordLocation} {outcome : String}
    (hm : Entry.handled location outcome ∈ entries) :
    (∃ topic runId release u rest, l = .consume topic (.accept location runId (.commit release u outcome rest)) ∧
      change = .outcome u) ∨ ∃ topic rejection message, outcome = "rejected" ∧
        l = .consume topic (.reject location rejection (.commit message)) := by
  have hnone {rest : List Entry} (hrest : ∀ entry ∈ rest, ∃ id invocation, entry = .accepted id invocation)
      (hm : Entry.handled location outcome ∈ rest) : False := by
    obtain ⟨id, invocation, heq⟩ := hrest _ hm
    contradiction
  cases h with
  | accept runId release u outcome' entries => exact (hnone hk.1.2.2.2.1 hm).elim
  | handle topic location' runId release u outcome' entries =>
    rcases List.mem_cons.mp hm with heq | hm
    · obtain ⟨rfl, rfl⟩ := Entry.handled.inj heq
      exact .inl ⟨topic, runId, release, u, entries, rfl, rfl⟩
    · exact (hnone hk.2.1.2.2.2.1 hm).elim
  | reject topic location' rejection message =>
    obtain ⟨rfl, rfl⟩ := Entry.handled.inj (List.mem_singleton.mp hm)
    exact .inr ⟨topic, rejection, message, rfl, rfl⟩
  | submit | register | claim | saveUid | publish => simp at hm
  | finish =>
    split at hm <;> simp at hm

theorem Durable.step (hs : l.next x p w i = (e, l')) (hk : l.Places x.decoders p w) (h : Durable x.decoders w)
    (hal : e.Allowed w.tables) (ha : w.apply p e = some w') (hl : Later w w') : Durable x.decoders w' where
  committed := by
    intro tp
    rcases committed_apply ha with heq | ⟨tp', offset, rfl, heq⟩
    · rw [heq]
      exact (h.committed tp).later hl
    · -- Only a record that is settled has its offset committed.
      rcases Proc.emits hs with hquiet | ⟨change, entries, hcommit, -⟩ | hrequest
      · contradiction
      · contradiction
      · generalize heffect : Effect.commitOffset tp' offset = effect at hrequest
        cases hrequest with
        | commitOffset topic location outcome =>
          obtain ⟨rfl, rfl⟩ := Effect.commitOffset.inj heffect
          rw [heq]
          by_cases htp : tp = location.tp
          · subst htp
            rw [RecordLocation.tp, Function.update_self]
            exact (hk.1.below.succ hk.2).later hl
          · have hsame : Function.update w.broker.committed (location.topic, location.partition)
                (location.offset + 1) tp = w.broker.committed tp := Function.update_of_ne htp ..
            rw [hsame]
            exact (h.committed tp).later hl
        | _ => contradiction
  handled := by
    intro location outcome hm hne
    cases hcommit : e.commits with
    | false =>
      rcases history_apply hcommit ha with heq | ⟨event, heq⟩
      · exact (h.handled location outcome (heq ▸ hm) hne).later hl
      · rw [heq] at hm
        rcases List.mem_cons.mp hm with heq | hm
        · contradiction
        · exact (h.handled location outcome hm hne).later hl
    | true =>
      obtain ⟨change, entries, rfl⟩ := e.commits_iff.mp hcommit
      have hcommits := Proc.commits hs rfl
      have hhistory : w'.history = entries ++ w.history := by
        obtain ⟨tables, -, rfl⟩ := commit_apply ha
        rfl
      rw [hhistory] at hm
      rcases List.mem_append.mp hm with hm | hm
      · rcases hcommits.handled hk hm with ⟨topic, runId, release, u, rest, rfl, rfl⟩ | ⟨_, _, _, rfl, -⟩
        · obtain ⟨-, ⟨hid, hdecided, -⟩, record, hrecord, hdecode⟩ := hk
          obtain ⟨row, hrow, hdecided'⟩ := decided_commit hdecided hal ha
          exact ⟨record, runId, row, World.recordAt_mono hrecord hl.log, hdecode, hid ▸ hrow, hdecided'⟩
        · exact absurd rfl hne
      · exact (h.handled location outcome hm hne).later hl

/-- Only a consumer asks for a partition. -/
theorem Proc.not_assign (hs : l.next x p w i = (e, l')) (hl : ∀ topic pc, l ≠ .consume topic pc) (tp : TopicPartition) :
    e ≠ .assign tp := by
  rintro rfl
  rcases Proc.emits hs with hquiet | ⟨change, entries, hcommit, -⟩ | hrequest
  · contradiction
  · contradiction
  · generalize heffect : Effect.assign tp = effect at hrequest
    cases hrequest with
    | assign topic => exact hl topic _ rfl
    | _ => contradiction

theorem World.disconnect_owner (w : World) (p : Pid) (tp : TopicPartition) : (w.disconnect p).broker.owner tp ≠ some p := by
  change (if w.broker.owner tp = some p then none else w.broker.owner tp) ≠ some p
  split
  · intro he
    cases he
  · assumption

theorem Proc.places_step (hs : l.next x p w i = (e, l')) (hk : l.Places x.decoders p w) (h : Durable x.decoders w)
    (hal : e.Allowed w.tables) (ha : w.apply p e = some w') (hl : Later w w') : l'.Places x.decoders p w' := by
  have hnone (hc : ∀ topic pc, l ≠ .consume topic pc) (hown : ∀ tp, w.broker.owner tp ≠ some p) (tp : TopicPartition) :
      w'.broker.owner tp ≠ some p :=
    fun howner => hown tp (owner_apply (Proc.not_assign hs hc) ha howner)
  cases l with
  | consume topic pc =>
    obtain ⟨rfl, rfl⟩ := Prod.mk.inj hs
    exact Consumer.places_step rfl hk h hal ha hl
  | unwinding =>
    obtain ⟨rfl, rfl⟩ := Prod.mk.inj hs
    obtain rfl := Option.some.inj ha
    exact w.disconnect_owner p
  | accept runId pc =>
    have hown := hnone (fun _ _ h => by cases h) hk.2
    obtain ⟨rfl, rfl⟩ := Prod.mk.inj hs
    exact (AcceptRun.decides_step rfl hk.1).proc (Q := fun l => l.Places x.decoders p w') (fun _ h => ⟨h, hown⟩) hown
  | idle =>
    obtain ⟨rfl, rfl⟩ := Prod.mk.inj hs
    exact hnone (fun _ _ h => by cases h) hk
  | submit | register | claim | reconcile | publish =>
    have hown := hnone (fun _ _ h => by cases h) hk
    obtain ⟨rfl, rfl⟩ := Prod.mk.inj hs
    exact (Progress.all_true _).proc (Q := fun l => l.Places x.decoders p w') (fun _ _ => hown) hown

/-- A failure leaves a process without partitions, or on its way to lose them. -/
theorem Proc.places_failing (hk : l.Places d p w)
    (hown : (∀ topic pc, l ≠ .consume topic pc) → (∀ tp, w.broker.owner tp ≠ some p) → ∀ tp, w'.broker.owner tp ≠ some p) :
    l.failing.Places d p w' := by
  cases l with
  | idle => exact hown (fun _ _ h => by cases h) hk
  | reconcile worker runId pc =>
    cases pc <;> first | trivial | exact hown (fun _ _ h => by cases h) hk
  | _ => trivial

end Programs

theorem offsets_proof (x : External) :
    (offsets x.decoders).Proof (runHistory.both holding) (platform x) fun _ _ => True where
  act := by
    intro p a w l w' l' _ ha hinv hb hg hc hk
    have hlater (hkeeps : KeepsPlaces p w w') : Later w w' := ⟨hkeeps.log, hkeeps.rejected, hg.1, hinv.1⟩
    have hsame : KeepsPlaces p w w := ⟨fun _ => List.prefix_rfl, fun _ _ h => h, fun _ _ _ h => ⟨h, rfl⟩⟩
    cases a with
    | start task =>
      obtain ⟨hidle, h'⟩ := Option.ite_none_right_eq_some.mp ha
      obtain ⟨rfl, rfl⟩ := Prod.mk.inj (Option.some.inj h')
      cases l with
      | idle =>
        have hown : ∀ tp, w.broker.owner tp ≠ some p := hk
        cases task with
        | consume topic => exact ⟨hc, fun tp howner => absurd howner (hown tp), hsame⟩
        | accept runId => exact ⟨hc, ⟨trivial, hown⟩, hsame⟩
        | _ => exact ⟨hc, hown, hsame⟩
      | _ => contradiction
    | run i =>
      obtain ⟨w₁, hw, h'⟩ := Option.map_eq_some_iff.mp ha
      obtain ⟨rfl, rfl⟩ := Prod.mk.inj h'
      obtain ⟨hal, -⟩ := Proc.knows_step rfl hb.1 hb.2 hw
      have hkeeps := keepsPlaces_apply hw
      exact ⟨hc.step rfl hk hal hw (hlater hkeeps), Proc.places_step rfl hk hc hal hw (hlater hkeeps), hkeeps⟩
    | lost i =>
      obtain ⟨w₁, hw, h'⟩ := Option.map_eq_some_iff.mp ha
      obtain ⟨rfl, rfl⟩ := Prod.mk.inj h'
      obtain ⟨hal, -⟩ := Proc.knows_step rfl hb.1 hb.2 hw
      have hkeeps := keepsPlaces_apply hw
      refine ⟨hc.step rfl hk hal hw (hlater hkeeps), Proc.places_failing hk fun hne hown tp howner => ?_, hkeeps⟩
      exact hown tp (owner_apply (Proc.not_assign rfl hne) hw howner)
    | fail =>
      obtain ⟨rfl, rfl⟩ := Prod.mk.inj (Option.some.inj ha)
      exact ⟨hc, Proc.places_failing hk fun _ hown => hown, hsame⟩
    | crash =>
      obtain ⟨rfl, rfl⟩ := Prod.mk.inj (Option.some.inj ha)
      have hkeeps : KeepsPlaces p w (w.disconnect p) := keepsPlaces_apply (e := .disconnect) rfl
      have hl := hlater hkeeps
      have hdurable : Durable x.decoders (w.disconnect p) :=
        ⟨fun tp => (hc.committed tp).later hl, fun location outcome hm hne => (hc.handled location outcome hm hne).later hl⟩
      exact ⟨hdurable, w.disconnect_owner p, hkeeps⟩
  stable := by
    intro p q l w w' hne hinv _ hg hkeeps _ hk
    exact hk.later ⟨hkeeps.log, hkeeps.rejected, hg.1, hinv.1⟩ fun tp howner => hkeeps.places q tp (Ne.symm hne) howner
  env := by
    intro ev w w' _ he hinv hc
    obtain ⟨hruns, hartifacts, houtbox⟩ := World.event_tables he
    have hadv : w.tables.Advances w'.tables :=
      .of_eq hruns hartifacts (congrArg (fun t => t.rows.map OutboxEvent.inserted) houtbox)
    obtain ⟨hlog, hcommitted, hplaces⟩ := World.event_offsets he
    have hl : Later w w' := ⟨hlog, World.event_rejected he, hadv, hinv.1⟩
    refine ⟨⟨fun tp => ?_, fun location outcome hm hne => ?_⟩, fun q l _ hk => hk.later hl fun tp howner => hplaces q tp howner⟩
    · rw [hcommitted]
      exact (hc.committed tp).later hl
    · rw [World.event_history he] at hm
      exact (hc.handled location outcome hm hne).later hl

theorem offsets_established (x : External) :
    ((offsets x.decoders).both (runHistory.both holding)).Established (platform x) (fun _ _ => True) initial := by
  refine (offsets_proof x).established (runHistory_established x) ⟨⟨?_, ?_⟩, fun _ _ h => by cases h⟩
  · exact fun _ offset h => absurd h (Nat.not_lt_zero offset)
  · exact fun _ _ h => by cases h

/-- The record a consumer works on. -/
def Consumer.location : Pc → Option RecordLocation
  | .decode location _ | .accept location _ _ | .reject location _ _ | .commit location _ => some location
  | .poll | .close => none

def Proc.location : Proc → Option RecordLocation
  | .consume _ pc => Consumer.location pc
  | _ => none

/-- A partition is never taken from a consumer that works on one of its records. -/
def OneConsumer (c : Config Pid World Proc) : Label Pid Action External.Event → Prop
  | .env (.revoke tp) => ∀ q location, (c.procs q).location = some location → location.tp ≠ tp
  | _ => True

section Runs
variable {x : External} {c c' : Config Pid World Proc} {p q : Pid} {w w' : World} {i : Input} {e : Effect} {l l' : Proc}
  {location : RecordLocation}

theorem Consumer.Places.inHand {d : Decoders} {pc : Consumer.Pc} (h : Places d p w pc)
    (hl : Consumer.location pc = some location) : InHand d p w location := by
  cases pc with
  | poll | close => contradiction
  | decode | accept | reject | commit =>
    obtain rfl := Option.some.inj hl
    exact h.1

/-- Whoever works on a record consumes its partition. -/
def WorksAlone (c : Config Pid World Proc) : Prop :=
  ∀ q location, (c.procs q).location = some location → c.shared.broker.owner location.tp = some q

theorem owner_kept {tp : TopicPartition} (ha : w.apply p e = some w') (hq : q ≠ p)
    (howner : w.broker.owner tp = some q) : w'.broker.owner tp = some q := by
  by_cases hbroker : e.quiet = true ∨ e.commits = true
  · rwa [broker_apply hbroker ha]
  have hclosed : (if w.broker.owner tp = some p then none else w.broker.owner tp) = some q := by
    rw [if_neg fun hp => hq (Option.some.inj (howner.symm.trans hp))]
    exact howner
  cases e with
  | assign tp' =>
    obtain ⟨hnone, h⟩ := Option.ite_none_right_eq_some.mp ha
    obtain rfl := Option.some.inj h
    have hne : tp ≠ tp' := by
      rintro rfl
      cases (howner.symm.trans hnone)
    exact (Function.update_of_ne hne (some p) w.broker.owner).trans howner
  | createJob key job =>
    obtain ⟨-, rfl⟩ := create_apply ha
    exact howner
  | produce =>
    obtain rfl := Option.some.inj ha
    exact howner
  | acknowledge | commitOffset | poll =>
    obtain ⟨-, h⟩ := Option.ite_none_right_eq_some.mp ha
    obtain rfl := Option.some.inj h
    exact howner
  | closeConsumer | disconnect =>
    obtain rfl := Option.some.inj ha
    exact hclosed
  | _ => exact absurd hbroker (by simp [Effect.quiet, Effect.commits])

theorem Consumer.location_step {d : Decoders} {topic : String} {pc : Consumer.Pc} {r : Progress Consumer.Pc Unit}
    (hs : step d topic p w i pc = (e, r))
    (hown : ∀ location, Consumer.location pc = some location → w.broker.owner location.tp = some p)
    (ha : w.apply p e = some w') (hl : (r.proc (.consume topic)).location = some location) :
    w'.broker.owner location.tp = some p := by
  have hstay (he : e.quiet = true ∨ e.commits = true) (hold : w.broker.owner location.tp = some p) :
      w'.broker.owner location.tp = some p := by rwa [broker_apply he ha]
  have hc := step_cases hs
  cases pc with
  | poll =>
    rcases hc with ⟨rfl, rfl | rfl⟩ | ⟨tp, ⟨-, rfl, rfl⟩ | ⟨record, hown, -, rfl, rfl⟩⟩
    · contradiction
    · contradiction
    · contradiction
    · obtain rfl := Option.some.inj hl
      obtain ⟨-, h⟩ := Option.ite_none_right_eq_some.mp ha
      obtain rfl := Option.some.inj h
      exact hown
  | decode location' message =>
    obtain ⟨rfl, ⟨runId, -, rfl⟩ | ⟨rejection, -, rfl⟩⟩ := hc
    · exact hstay (.inl rfl) (hown _ hl)
    · exact hstay (.inl rfl) (hown _ hl)
  | accept location' runId pc =>
    obtain ⟨e₀, r₀, hs₀, hr⟩ := hc
    rcases AcceptRun.emits hs₀ with ⟨hquiet, hne⟩ | ⟨release, u, outcome, entries, rfl, rfl, rfl⟩
    · rcases hr with ⟨pc', rfl, rfl, rfl⟩ | ⟨outcome, h, -⟩ | ⟨message, -, rfl, rfl⟩ | ⟨err, -, -, rfl⟩
      · exact hstay (.inl hquiet) (hown _ hl)
      · exact absurd h (hne outcome)
      · exact hstay (.inl hquiet) (hown _ hl)
      · contradiction
    · rcases hr with ⟨pc', h, -⟩ | ⟨outcome', -, rfl, rfl⟩ | ⟨message, h, -⟩ | ⟨err, h, -⟩
      · contradiction
      · exact hstay (.inr rfl) (hown _ hl)
      · contradiction
      · contradiction
  | reject location' rejection pc =>
    obtain ⟨e₀, r₀, hs₀, hr⟩ := hc
    have hc₀ := record_cases hs₀
    cases pc with
    | insert =>
      rcases hc₀ with ⟨-, rfl, rfl⟩ | ⟨-, rfl, rfl⟩ <;> rcases hr with ⟨pc', -, rfl, rfl⟩ | ⟨h, -⟩
      · exact hstay (.inl rfl) (hown _ hl)
      · contradiction
      · exact hstay (.inl rfl) (hown _ hl)
      · contradiction
    | commit message =>
      obtain ⟨rfl, rfl⟩ := hc₀
      rcases hr with ⟨pc', h, -⟩ | ⟨-, rfl, rfl⟩
      · contradiction
      · exact hstay (.inr rfl) (hown _ hl)
  | commit location' outcome => rcases hc with ⟨-, rfl⟩ | ⟨-, rfl⟩ <;> contradiction
  | close =>
    obtain ⟨-, rfl⟩ := hc
    contradiction

theorem Proc.failing_location (l : Proc) : l.failing.location = none := by
  cases l with
  | reconcile worker runId pc => cases pc <;> rfl
  | _ => rfl

theorem Proc.location_of_consume (h : l.location = some location) : ∃ topic pc, l = .consume topic pc := by
  cases l with
  | consume topic pc => exact ⟨topic, pc, rfl⟩
  | _ => contradiction

theorem Progress.proc_location {π ρ : Type} {f : π → Proc} (hf : ∀ pc, (f pc).location = none) (r : Progress π ρ) :
    (r.proc f).location = none := by
  cases r with
  | running pc => exact hf pc
  | returned _ | raised _ => rfl

theorem Proc.next_location (hl : ∀ topic pc, l ≠ .consume topic pc) {location : Option RecordLocation}
    (h : (l.next x p w i).2.location = location) : location = none := by
  rw [← h]
  cases l with
  | consume topic pc => exact absurd rfl (hl topic pc)
  | idle | unwinding => rfl
  | _ => exact Progress.proc_location (fun _ => rfl) _

theorem Proc.location_step (hs : l.next x p w i = (e, l'))
    (hown : ∀ location, l.location = some location → w.broker.owner location.tp = some p)
    (ha : w.apply p e = some w') (hl : l'.location = some location) : w'.broker.owner location.tp = some p := by
  cases l with
  | consume topic pc =>
    obtain ⟨rfl, rfl⟩ := Prod.mk.inj hs
    exact Consumer.location_step rfl hown ha hl
  | _ =>
    have hnext := (congrArg (fun s => s.2.location) hs).trans hl
    cases (Proc.next_location (fun _ _ h => by cases h) hnext)

theorem worksAlone (h : Path (platform x) OneConsumer initial c) : WorksAlone c := by
  induction h with
  | refl => exact fun _ _ h => by cases h
  | @step c c' l _ hok hs ih =>
    intro q location hl
    cases l with
    | env ev =>
      obtain ⟨w, hev, rfl⟩ := Option.map_eq_some_iff.mp hs
      have howner := ih q location hl
      cases ev with
      | revoke tp =>
        obtain rfl := Option.some.inj hev
        exact (Function.update_of_ne (hok q location hl) none c.shared.broker.owner).trans howner
      | updateJob key job =>
        obtain ⟨old, -, rfl⟩ := Option.map_eq_some_iff.mp hev
        exact howner
      | createJob key job =>
        obtain ⟨-, rfl⟩ := create_apply hev
        exact howner
      | deliver sent partition =>
        obtain ⟨record, -, rfl⟩ := Option.map_eq_some_iff.mp hev
        exact howner
      | addUser | deleteJob | append =>
        obtain rfl := Option.some.inj hev
        exact howner
    | act p a =>
      obtain ⟨⟨w, l⟩, ha, rfl⟩ := Option.map_eq_some_iff.mp hs
      by_cases hq : q = p
      · subst hq
        simp only [Function.update_self] at hl
        cases a with
        | start task =>
          obtain ⟨-, h'⟩ := Option.ite_none_right_eq_some.mp ha
          obtain ⟨-, rfl⟩ := Prod.mk.inj (Option.some.inj h')
          cases task <;> contradiction
        | run i =>
          obtain ⟨w₁, hw, h'⟩ := Option.map_eq_some_iff.mp ha
          obtain ⟨rfl, rfl⟩ := Prod.mk.inj h'
          exact Proc.location_step rfl (ih q) hw hl
        | lost i =>
          obtain ⟨w₁, hw, h'⟩ := Option.map_eq_some_iff.mp ha
          obtain ⟨-, rfl⟩ := Prod.mk.inj h'
          rw [Proc.failing_location] at hl
          contradiction
        | fail =>
          obtain ⟨-, rfl⟩ := Prod.mk.inj (Option.some.inj ha)
          rw [Proc.failing_location] at hl
          contradiction
        | crash =>
          obtain ⟨-, rfl⟩ := Prod.mk.inj (Option.some.inj ha)
          contradiction
      · simp only [Function.update_of_ne hq] at hl
        have howner := ih q location hl
        rcases platformAct_effect ha with rfl | rfl | ⟨i, hw⟩
        · exact howner
        · exact owner_kept (e := .disconnect) rfl hq howner
        · exact owner_kept hw hq howner

theorem Effect.quiet_commits (h : e.quiet = true) : e.commits = false := by
  cases e with
  | commit => contradiction
  | _ => rfl

/-- What an action adds to the history. -/
theorem platformAct_history {a : Action} (ha : platformAct x p a w l = some (w', l')) :
    w'.history = w.history ∨ (∃ event, w'.history = .acknowledged event :: w.history) ∨
      ∃ i change entries, (l.next x p w i).1 = .commit change entries ∧
        w.apply p (.commit change entries) = some w' ∧ w'.history = entries ++ w.history := by
  rcases platformAct_effect ha with rfl | rfl | ⟨i, hw⟩
  · exact .inl rfl
  · exact .inl rfl
  · cases hcommit : (l.next x p w i).1.commits with
    | false => exact (history_apply hcommit hw).imp_right .inl
    | true =>
      obtain ⟨change, entries, he⟩ := (Effect.commits_iff _).mp hcommit
      rw [he] at hw
      refine .inr (.inr ⟨i, change, entries, he, hw, ?_⟩)
      obtain ⟨tables, -, rfl⟩ := commit_apply hw
      rfl

/-- A new outcome of a record was committed by who works on it. -/
theorem handled_new {a : Action} (ha : platformAct x p a w l = some (w', l')) (hk : l.Places x.decoders p w)
    {outcome : String} (hm : Entry.handled location outcome ∈ w'.history)
    (hold : Entry.handled location outcome ∉ w.history) : l.location = some location := by
  rcases platformAct_history ha with heq | ⟨event, heq⟩ | ⟨i, change, entries, he, -, heq⟩
  · exact absurd (heq ▸ hm) hold
  · rw [heq] at hm
    rcases List.mem_cons.mp hm with h | hm
    · contradiction
    · exact absurd hm hold
  · rw [heq] at hm
    have hcommits := Proc.commits (Prod.mk.eta (p := l.next x p w i)).symm he
    rcases List.mem_append.mp hm with hm | hm
    · rcases hcommits.handled hk hm with ⟨_, _, _, _, _, rfl, -⟩ | ⟨_, _, _, -, rfl⟩ <;> rfl
    · exact absurd hm hold

/-- An acceptance whose run is decided already finds it so. -/
theorem AcceptRun.decided_step {runId : UUID} {row : Run} {pc : AcceptRun.Pc} {r : Progress AcceptRun.Pc String}
    (hs : step runId w i pc = (e, r)) (hk : Decides runId pc) (hv : ∀ h ∈ holds pc, h.Valid p w)
    (hrow : w.tables.runs.find? runId = some row) (hdecided : row.Decided) (message : String) :
    r ≠ .raised (.runNotFound message) := by
  rintro rfl
  cases pc with
  | readRelease =>
    rw [step, hrow] at hs
    cases (Prod.mk.inj hs).2
  | lockRelease releaseId =>
    simp only [step] at hs
    split at hs
    · cases (Progress.raised.inj (Prod.mk.inj hs).2)
    · cases (Prod.mk.inj hs).2
  | lockRun release =>
    simp only [step, hrow] at hs
    split at hs <;> cases (Prod.mk.inj hs).2
  | loadRelease release row' =>
    -- The row was read open, under the lock that is still held.
    obtain ⟨-, hrow'⟩ : (Hold.run row').Valid p w := hv _ (by simp [holds])
    rw [hk.1, hrow] at hrow'
    obtain rfl := Option.some.inj hrow'
    exact hk.2 hdecided
  | commit release u outcome entries => cases (Prod.mk.inj hs).2

theorem Progress.proc_consume {topic topic' : String} {pc : Consumer.Pc} {r : Progress Consumer.Pc Unit}
    (h : r.proc (.consume topic) = .consume topic' pc) : topic = topic' ∧ r = .running pc := by
  cases r with
  | running pc' =>
    obtain ⟨rfl, rfl⟩ := Proc.consume.inj h
    exact ⟨rfl, rfl⟩
  | returned _ | raised _ => contradiction

theorem Consumer.rejects_step {d : Decoders} {topic : String} {pc : Consumer.Pc} {r : Progress Consumer.Pc Unit}
    (hs : step d topic p w i pc = (e, r)) (hk : Places d p w pc) (hv : ∀ h ∈ holds pc, h.Valid p w)
    {rejection : Rejection} {pc' : RejectPc} (hr : r = .running (.reject location rejection pc')) :
    e.quiet = true ∧ (¬ w.DecidedAt d location ∨ ∃ before, pc = .reject location rejection before) := by
  have hc := step_cases hs
  cases pc with
  | poll =>
    rcases hc with ⟨-, rfl | rfl⟩ | ⟨tp, ⟨-, -, rfl⟩ | ⟨record, -, -, -, rfl⟩⟩ <;>
      cases (Progress.running.inj hr)
  | decode location' message =>
    obtain ⟨rfl, ⟨runId, -, rfl⟩ | ⟨rejection', hdecode, rfl⟩⟩ := hc
    · cases (Progress.running.inj hr)
    · obtain ⟨rfl, -⟩ := Consumer.Pc.reject.inj (Progress.running.inj hr)
      obtain ⟨-, record, hrecord, rfl⟩ := hk
      refine ⟨rfl, .inl ?_⟩
      rintro ⟨record', id, row, hrecord', hdecode', -⟩
      obtain rfl := Option.some.inj (hrecord.symm.trans hrecord')
      cases (hdecode.symm.trans hdecode')
  | accept location' runId pc =>
    obtain ⟨-, hdecides, record, hrecord, hdecode⟩ := hk
    obtain ⟨e₀, r₀, hs₀, h⟩ := hc
    rcases h with ⟨_, -, -, rfl⟩ | ⟨_, -, -, rfl⟩ | ⟨message, rfl, rfl, rfl⟩ | ⟨_, -, -, rfl⟩
    · cases (Progress.running.inj hr)
    · cases (Progress.running.inj hr)
    · obtain ⟨rfl, -⟩ := Consumer.Pc.reject.inj (Progress.running.inj hr)
      have hquiet : e.quiet = true := by
        rcases AcceptRun.emits hs₀ with ⟨hquiet, -⟩ | ⟨_, _, _, _, -, -, h⟩
        · exact hquiet
        · contradiction
      refine ⟨hquiet, .inl ?_⟩
      rintro ⟨record', id, row, hrecord', hdecode', hrow, hdecided⟩
      obtain rfl := Option.some.inj (hrecord.symm.trans hrecord')
      obtain rfl := Request.run.inj (hdecode.symm.trans hdecode')
      exact AcceptRun.decided_step hs₀ hdecides hv hrow hdecided message rfl
    · cases (Progress.running.inj hr)
  | reject location' rejection' pc =>
    obtain ⟨e₀, r₀, hs₀, h⟩ := hc
    have hc₀ := record_cases hs₀
    rcases h with ⟨pc'', rfl, rfl, rfl⟩ | ⟨-, -, rfl⟩
    · obtain ⟨rfl, rfl, -⟩ := Consumer.Pc.reject.inj (Progress.running.inj hr)
      cases pc with
      | insert => exact ⟨by rcases hc₀ with ⟨-, rfl, -⟩ | ⟨-, rfl, -⟩ <;> rfl, .inr ⟨_, rfl⟩⟩
      | commit message => cases hc₀.2
    · cases (Progress.running.inj hr)
  | commit location' outcome =>
    rcases hc with ⟨-, rfl⟩ | ⟨-, rfl⟩ <;> cases (Progress.running.inj hr)
  | close =>
    obtain ⟨-, rfl⟩ := hc
    contradiction

/-- While a partition has one consumer, no record is being rejected that once had another outcome. -/
theorem rejects_unhandled (h : Path (platform x) OneConsumer initial c) {topic : String} {rejection : Rejection}
    {pc : Consumer.RejectPc} (hq : c.procs q = .consume topic (.reject location rejection pc)) {outcome : String}
    (hne : outcome ≠ "rejected") : Entry.handled location outcome ∉ c.shared.history := by
  induction h generalizing topic pc with
  | refl => cases hq
  | @step c c' l hpath hok hs ih =>
    have hr := hpath.reachable
    have hholds := (offsets_established x).holds c hr
    cases l with
    | env ev =>
      obtain ⟨w, hev, rfl⟩ := Option.map_eq_some_iff.mp hs
      rw [World.event_history hev]
      exact ih hq
    | act p a =>
      obtain ⟨⟨w, l⟩, ha, rfl⟩ := Option.map_eq_some_iff.mp hs
      intro hm
      by_cases hp : q = p
      · subst hp
        simp only [Function.update_self] at hq
        subst hq
        cases a with
        | start task =>
          obtain ⟨-, h'⟩ := Option.ite_none_right_eq_some.mp ha
          have htask := (Prod.mk.inj (Option.some.inj h')).2
          cases task <;> simp [Task.proc] at htask
        | run i =>
          obtain ⟨w₁, hw, h'⟩ := Option.map_eq_some_iff.mp ha
          obtain ⟨rfl, hnext⟩ := Prod.mk.inj h'
          obtain ⟨hk, -, hheld⟩ := hholds.2 q
          have hrejects : ((c.procs q).next x q c.shared i).1.quiet = true ∧ (¬ c.shared.DecidedAt x.decoders location ∨
              ∃ before, c.procs q = .consume topic (.reject location rejection before)) := by
            generalize c.procs q = l at hnext hk hheld
            cases l with
            | consume topic' pc' =>
              have hstep : Consumer.step x.decoders topic' q c.shared i pc' = (_, _) := Prod.mk.eta.symm
              obtain ⟨rfl, hrunning⟩ := Progress.proc_consume hnext
              obtain ⟨hquiet, hbefore⟩ := Consumer.rejects_step hstep hk hheld.valid hrunning
              exact ⟨hquiet, hbefore.imp_right fun ⟨before, hpc⟩ => ⟨before, hpc ▸ rfl⟩⟩
            | idle | unwinding => contradiction
            | _ =>
              have hlocation := Proc.next_location (fun _ _ h => by cases h) (congrArg Proc.location hnext)
              contradiction
          obtain ⟨hquiet, hbefore⟩ := hrejects
          have hold : Entry.handled location outcome ∈ c.shared.history := by
            have hcommits : ((c.procs q).next x q c.shared i).1.commits = false := Effect.quiet_commits hquiet
            rcases history_apply hcommits hw with heq | ⟨event, heq⟩
            · exact heq ▸ hm
            · have hm : Entry.handled location outcome ∈ w₁.history := hm
              rw [heq] at hm
              exact (List.mem_cons.mp hm).resolve_left (fun he => by cases he)
          rcases hbefore with hundecided | ⟨before, hpc⟩
          · exact hundecided (hholds.1.1.handled location outcome hold hne)
          · exact ih hpc hold
        | lost i =>
          obtain ⟨w₁, hw, h'⟩ := Option.map_eq_some_iff.mp ha
          have hlocation := congrArg Proc.location (Prod.mk.inj h').2
          rw [Proc.failing_location] at hlocation
          contradiction
        | fail =>
          have hlocation := congrArg Proc.location (Prod.mk.inj (Option.some.inj ha)).2
          rw [Proc.failing_location] at hlocation
          contradiction
        | crash => cases (Prod.mk.inj (Option.some.inj ha)).2
      · simp only [Function.update_of_ne hp] at hq
        have hold := ih hq
        have hlocation := handled_new ha (hholds.2 p).1 hm hold
        have hown := worksAlone hpath p location hlocation
        have hown' := worksAlone hpath q location (congrArg Proc.location hq)
        exact hp (Option.some.inj (hown'.symm.trans hown))

/-- A transaction that found nothing to write writes nothing. -/
theorem clean_apply {t t' : Tables} {row : Run} (hrow : t.runs.find? row.id = some row)
    (h : (Change.outcome (.clean row)).apply t = some t') : t' = t := by
  obtain ⟨artifacts, outbox, hartifacts, houtbox, rfl⟩ := Change.outcome_apply h
  obtain rfl := Option.some.inj hartifacts
  obtain rfl := Option.some.inj houtbox
  exact congrArg (fun runs => { t with runs }) (Table.modify_self hrow (Run.flush_self row row))

/-- A record that had an outcome other than a rejection is found unchanged ever after. -/
theorem unchanged_again (h : Path (platform x) OneConsumer initial c) {a : Action}
    (hs : (platform x).step c (.act p a) = some c') {entries : List Entry} {before outcome : String}
    (hhistory : c'.shared.history = entries ++ c.shared.history) (hm : Entry.handled location outcome ∈ entries)
    (hbefore : Entry.handled location before ∈ c.shared.history) (hne : before ≠ "rejected") :
    outcome = "unchanged" ∧ c'.shared.tables = c.shared.tables := by
  obtain ⟨⟨w, l⟩, ha, rfl⟩ := Option.map_eq_some_iff.mp hs
  obtain ⟨⟨hdurable, -⟩, hall⟩ := (offsets_established x).holds c h.reachable
  obtain ⟨hk, -, hheld⟩ := hall p
  rcases platformAct_history ha with heq | ⟨event, heq⟩ | ⟨i, change, entries', he, hw, heq⟩
  · obtain rfl := List.self_eq_append_left.mp (heq.symm.trans hhistory)
    contradiction
  · obtain rfl : [Entry.acknowledged event] = entries :=
      List.append_cancel_right (heq.symm.trans hhistory : [Entry.acknowledged event] ++ _ = _)
    cases (List.mem_singleton.mp hm)
  · obtain rfl : entries' = entries := List.append_cancel_right (heq.symm.trans hhistory)
    have hcommits := Proc.commits (Prod.mk.eta (p := (c.procs p).next x p c.shared i)).symm he
    generalize hl : c.procs p = l at hcommits hk hheld
    rcases hcommits.handled hk hm with ⟨topic, runId, release, u, rest, rfl, rfl⟩ | ⟨topic, rejection, message, -, rfl⟩
    · obtain ⟨-, ⟨hid, -, -, -, hclean⟩, record, hrecord, hdecode⟩ := hk
      obtain ⟨-, hrow⟩ : (Hold.run u.loaded).Valid p c.shared := hheld.valid _ (by simp [Proc.holds, Consumer.holds, AcceptRun.holds])
      rcases hclean with ⟨hu, rfl, rfl⟩ | hopen
      · obtain ⟨tables, ht, rfl⟩ := commit_apply hw
        rw [hu] at ht
        exact ⟨rfl, clean_apply hrow ht⟩
      · -- The run that the record asks for is decided, and is the one that was loaded.
        obtain ⟨record', id, row, hrecord', hdecode', hrow', hdecided⟩ := hdurable.handled location before hbefore hne
        obtain rfl := Option.some.inj (hrecord.symm.trans hrecord')
        obtain rfl := Request.run.inj (hdecode.symm.trans hdecode')
        rw [hid, hrow'] at hrow
        exact absurd (Option.some.inj hrow ▸ hdecided) hopen
    · exact absurd hbefore (rejects_unhandled h hl hne)

theorem Reached.rejected_stays (h : Reached x c) (h' : Reachable (platform x) (fun _ _ => True) c c')
    {row : RejectedMessage} (hrow : c.shared.tables.rejected.find? location = some row) :
    c'.shared.tables.rejected.find? location = some row := by
  induction h' with
  | refl => exact hrow
  | @step d d' l hd _ hs ih =>
    cases l with
    | env ev =>
      obtain ⟨w, hev, rfl⟩ := Option.map_eq_some_iff.mp hs
      exact World.event_rejected hev location row ih
    | act p a =>
      obtain ⟨⟨w, l⟩, ha, rfl⟩ := Option.map_eq_some_iff.mp hs
      exact ((offsets_established x).guaranteed d p a w l (h.trans hd) trivial ha).1.rejected location row ih

/-- Kafka's progress never outruns durable outcomes. Every record below a committed offset is settled; whoever works on
a record finds every earlier one settled; a location has one rejection, which stays; and while a partition has one
consumer at a time, a record that was accepted, failed or unchanged before is unchanged again, and writes nothing. -/
theorem kafka_progress (h : Reached x c) :
    (∀ location : RecordLocation, location.offset < c.shared.broker.committed location.tp →
      c.shared.SettledAt x.decoders location) ∧
    (∀ p location, (c.procs p).location = some location → ∀ offset < location.offset,
      c.shared.SettledAt x.decoders { location with offset }) ∧
    (∀ location, (c.shared.tables.rejected.rows.filter fun row => row.location = location).length ≤ 1 ∧
      ∀ c' row, Reachable (platform x) (fun _ _ => True) c c' →
        c.shared.tables.rejected.find? location = some row → c'.shared.tables.rejected.find? location = some row) ∧
    (Path (platform x) OneConsumer initial c → ∀ p a c' entries location before outcome,
      (platform x).step c (.act p a) = some c' → c'.shared.history = entries ++ c.shared.history →
      Entry.handled location outcome ∈ entries → Entry.handled location before ∈ c.shared.history →
      before ∈ ["accepted", "failed-run", "unchanged"] →
        outcome = "unchanged" ∧ c'.shared.tables = c.shared.tables) := by
  obtain ⟨⟨hdurable, -⟩, hall⟩ := (offsets_established x).holds c h
  refine ⟨fun location hlt => hdurable.committed location.tp location.offset hlt, fun p location hl offset hlt => ?_,
    fun location => ⟨?_, fun c' row h' hrow => h.rejected_stays h' hrow⟩, ?_⟩
  · have hk := (hall p).1
    obtain ⟨topic, pc, hpc⟩ := Proc.location_of_consume hl
    rw [hpc] at hk hl
    exact (Consumer.Places.inHand hk hl).below offset hlt
  · have hone := c.shared.tables.rejected.filter_key location
    have hlength : ((c.shared.tables.rejected.find? location).toList).length ≤ 1 := by
      cases c.shared.tables.rejected.find? location <;> simp
    exact (congrArg List.length hone).trans_le hlength
  · intro hpath p a c' entries location before outcome hs hhistory hm hbefore hmem
    refine unchanged_again hpath hs hhistory hm hbefore ?_
    rintro rfl
    exact absurd hmem (by decide)

theorem kafka_progress_demo : ∃ c, Reached Demo.external c ∧ c.shared.SettledAt Demo.external.decoders ⟨"requests", 0, 0⟩ := by
  obtain ⟨c, r, hc, -, -, -, hcommitted⟩ := Demo.accepted
  refine ⟨c, Demo.reached hc, (kafka_progress (Demo.reached hc)).1 ⟨"requests", 0, 0⟩ ?_⟩
  exact hcommitted ▸ Nat.one_pos

end Runs
end Mic3
