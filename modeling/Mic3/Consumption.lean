import Mic3.Acceptance
import Mic3.Publication

/-! The consumer loop: poll a record, decode it, accept its run or record a rejection, and only then
commit the offset. Any failure closes the consumer; the next one resumes from committed offsets. -/
namespace Mic3
open Relational

/-- The standard library's decoders. Loading gives no value where `json.loads` raises. -/
structure Decoders where
  jsonLoads : Bytes → Option Json
  uuid : String → Option UUID
  fromisoformat : String → Option Datetime

structure Rejection where
  code : String
  diagnostic : String
  deriving DecidableEq

/-- What a record asks for. -/
inductive Request where
  | run (id : UUID)
  | rejection (r : Rejection)
  deriving DecidableEq

namespace Decoders

def text (value : Option Json) : Option String :=
  match value with
  | some (.str s) => some s
  | _ => none

/-- The run id of an envelope with UUID identifiers and a timezone-aware creation time. -/
def identifiers (d : Decoders) (data : Json) : Option UUID := do
  let _ ← d.uuid (← text (data.get? "event_id"))
  let runId ← d.uuid (← text (data.get? "run_id"))
  let createdAt ← d.fromisoformat (← text (data.get? "created_at"))
  let _ ← createdAt.utcoffset
  return runId

def decodeEnvelope (d : Decoders) (key : Option Bytes) (data : Json) : Request :=
  if data.get? "schema_version" ≠ some (.int 1) then
    .rejection ⟨"unsupported_version", "Expected schema version 1."⟩
  else if data.get? "event_type" ≠ some (.str "run.requested") then
    .rejection ⟨"unsupported_event", "Expected run.requested."⟩
  else match d.identifiers data with
    | none => .rejection
        ⟨"invalid_envelope", "Expected UUID identifiers and a timezone-aware creation time."⟩
    | some runId =>
      if key ≠ some (utf8 runId.str.toList) then
        .rejection ⟨"key_mismatch", "Record key must match the run UUID."⟩
      else .run runId

/-- `decode_request(key, value)`. -/
def decodeRequest (d : Decoders) (message : Message) : Request :=
  match message.value.bind d.jsonLoads with
  | some (.obj fields) => d.decodeEnvelope message.key (.obj fields)
  | _ => .rejection ⟨"invalid_envelope", "Expected a JSON object."⟩

end Decoders

namespace Consumer

/-- `SqlAlchemyRejections.record`, an insertion that does nothing on conflict. -/
inductive RejectPc where
  | insert
  | commit (message : Option RejectedMessage)

def record (location : RecordLocation) (rejection : Rejection) (w : World) :
    RejectPc → Effect × Progress RejectPc Unit
  | .insert =>
    if (w.tables.rejected.find? location).isSome then (.read, .running (.commit none))
    else (.lock (.rejection location),
      .running (.commit (some ⟨location, rejection.code, rejection.diagnostic⟩)))
  | .commit message => (.commit (message.elim .nothing .reject) [], .returned ())

theorem record_cases {location : RecordLocation} {rejection : Rejection} {w : World} {pc : RejectPc}
    {e : Effect} {r : Progress RejectPc Unit} : record location rejection w pc = (e, r) →
    match pc with
    | .insert => (w.tables.rejected.find? location).isSome ∧ e = .read ∧
          r = .running (.commit none) ∨
        w.tables.rejected.find? location = none ∧ e = .lock (.rejection location) ∧
          r = .running (.commit (some ⟨location, rejection.code, rejection.diagnostic⟩))
    | .commit message => e = .commit (message.elim .nothing .reject) [] ∧ r = .returned () := by
  intro hs
  cases pc with
  | insert =>
    simp only [record] at hs
    split at hs <;> obtain ⟨rfl, rfl⟩ := Prod.mk.inj hs
    · exact .inl ⟨‹_›, rfl, rfl⟩
    · exact .inr ⟨Option.not_isSome_iff_eq_none.mp ‹_›, rfl, rfl⟩
  | commit message =>
    obtain ⟨rfl, rfl⟩ := Prod.mk.inj hs
    exact ⟨rfl, rfl⟩

inductive Pc where
  | poll
  | decode (location : RecordLocation) (message : Message)
  | accept (location : RecordLocation) (runId : UUID) (pc : AcceptRun.Pc)
  | reject (location : RecordLocation) (rejection : Rejection) (pc : RejectPc)
  | commit (location : RecordLocation) (outcome : String)
  | close

/-- `execute` returned for a record: its outcome enters the history with the commit that ended it. -/
def noting (location : RecordLocation) (outcome : String) : Effect → Effect
  | .commit change entries => .commit change (.handled location outcome :: entries)
  | effect => effect

def step (d : Decoders) (topic : String) (p : Pid) (w : World) (i : Input) :
    Pc → Effect × Progress Pc Unit
  | .poll =>
    let tp := i.partition
    if i.fault then (.read, .running .close)
    else if tp.1 ≠ topic then (.read, .running .poll)
    else if w.broker.owner tp = none then (.assign tp, .running .poll)
    else if w.broker.owner tp ≠ some p then (.read, .running .poll)
    else match (w.broker.log tp)[w.broker.position tp]? with
      | none => (.read, .running .poll)
      | some record =>
        (.poll tp, .running (.decode ⟨tp.1, tp.2, w.broker.position tp⟩ record.message))
  | .decode location message =>
    match d.decodeRequest message with
    | .run runId => (.read, .running (.accept location runId .readRelease))
    | .rejection r => (.read, .running (.reject location r .insert))
  | .accept location runId pc =>
    match AcceptRun.step runId w i pc with
    | (effect, .running pc) => (effect, .running (.accept location runId pc))
    | (effect, .returned outcome) => (noting location outcome effect, .running (.commit location outcome))
    | (effect, .raised (.runNotFound _)) =>
      (effect, .running (.reject location ⟨"run_not_found", "Run does not exist."⟩ .insert))
    | (effect, .raised _) => (effect, .running .close)
  | .reject location rejection pc =>
    match record location rejection w pc with
    | (effect, .running pc) => (effect, .running (.reject location rejection pc))
    | (effect, .returned _) =>
      (noting location "rejected" effect, .running (.commit location "rejected"))
    | (effect, .raised _) => (effect, .running .close)
  | .commit location _ =>
    if i.fault then (.read, .running .close)
    else (.commitOffset (location.topic, location.partition) (location.offset + 1), .running .poll)
  | .close => (.closeConsumer, .returned ())

/-- What a statement of the consumer does, the constructor of its `Pc` given. -/
theorem step_cases {d : Decoders} {topic : String} {p : Pid} {w : World} {i : Input} {pc : Pc}
    {e : Effect} {r : Progress Pc Unit} : step d topic p w i pc = (e, r) →
    match pc with
    | .poll => (e = .read ∧ (r = .running .close ∨ r = .running .poll)) ∨
        ∃ tp, (w.broker.owner tp = none ∧ e = .assign tp ∧ r = .running .poll) ∨
          ∃ record, w.broker.owner tp = some p ∧
            (w.broker.log tp)[w.broker.position tp]? = some record ∧ e = .poll tp ∧
            r = .running (.decode ⟨tp.1, tp.2, w.broker.position tp⟩ record.message)
    | .decode location message => e = .read ∧
        ((∃ runId, d.decodeRequest message = .run runId ∧
            r = .running (.accept location runId .readRelease)) ∨
          ∃ rejection, d.decodeRequest message = .rejection rejection ∧
            r = .running (.reject location rejection .insert))
    | .accept location runId pc => ∃ e₀ r₀, AcceptRun.step runId w i pc = (e₀, r₀) ∧
        ((∃ pc', r₀ = .running pc' ∧ e = e₀ ∧ r = .running (.accept location runId pc')) ∨
          (∃ outcome, r₀ = .returned outcome ∧ e = noting location outcome e₀ ∧
            r = .running (.commit location outcome)) ∨
          (∃ message, r₀ = .raised (.runNotFound message) ∧ e = e₀ ∧
            r = .running (.reject location ⟨"run_not_found", "Run does not exist."⟩ .insert)) ∨
          ∃ err, r₀ = .raised err ∧ e = e₀ ∧ r = .running .close)
    | .reject location rejection pc => ∃ e₀ r₀, record location rejection w pc = (e₀, r₀) ∧
        ((∃ pc', r₀ = .running pc' ∧ e = e₀ ∧ r = .running (.reject location rejection pc')) ∨
          r₀ = .returned () ∧ e = noting location "rejected" e₀ ∧
            r = .running (.commit location "rejected"))
    | .commit location _ => (e = .read ∧ r = .running .close) ∨
        e = .commitOffset (location.topic, location.partition) (location.offset + 1) ∧
          r = .running .poll
    | .close => e = .closeConsumer ∧ r = .returned () := by
  intro hs
  cases pc with
  | poll =>
    simp only [step] at hs
    split at hs
    · obtain ⟨rfl, rfl⟩ := Prod.mk.inj hs
      exact .inl ⟨rfl, .inl rfl⟩
    · split at hs
      · obtain ⟨rfl, rfl⟩ := Prod.mk.inj hs
        exact .inl ⟨rfl, .inr rfl⟩
      · split at hs
        · obtain ⟨rfl, rfl⟩ := Prod.mk.inj hs
          exact .inr ⟨i.partition, .inl ⟨‹_›, rfl, rfl⟩⟩
        · split at hs
          · obtain ⟨rfl, rfl⟩ := Prod.mk.inj hs
            exact .inl ⟨rfl, .inr rfl⟩
          · rename_i howner
            split at hs <;> obtain ⟨rfl, rfl⟩ := Prod.mk.inj hs
            · exact .inl ⟨rfl, .inr rfl⟩
            · exact .inr ⟨i.partition, .inr ⟨_, not_not.mp howner, ‹_›, rfl, rfl⟩⟩
  | decode location message =>
    simp only [step] at hs
    split at hs <;> obtain ⟨rfl, rfl⟩ := Prod.mk.inj hs
    · exact ⟨rfl, .inl ⟨_, ‹_›, rfl⟩⟩
    · exact ⟨rfl, .inr ⟨_, ‹_›, rfl⟩⟩
  | accept location runId pc =>
    simp only [step] at hs
    split at hs <;> rename_i heq <;> obtain ⟨rfl, rfl⟩ := Prod.mk.inj hs
    · exact ⟨_, _, heq, .inl ⟨_, rfl, rfl, rfl⟩⟩
    · exact ⟨_, _, heq, .inr (.inl ⟨_, rfl, rfl, rfl⟩)⟩
    · exact ⟨_, _, heq, .inr (.inr (.inl ⟨_, rfl, rfl, rfl⟩))⟩
    · exact ⟨_, _, heq, .inr (.inr (.inr ⟨_, rfl, rfl, rfl⟩))⟩
  | reject location rejection pc =>
    simp only [step] at hs
    split at hs <;> rename_i heq
    · obtain ⟨rfl, rfl⟩ := Prod.mk.inj hs
      exact ⟨_, _, heq, .inl ⟨_, rfl, rfl, rfl⟩⟩
    · obtain ⟨rfl, rfl⟩ := Prod.mk.inj hs
      exact ⟨_, _, heq, .inr ⟨rfl, rfl, rfl⟩⟩
    · have hr := record_cases heq
      cases pc with
      | insert => rcases hr with ⟨_, _, h⟩ | ⟨_, _, h⟩ <;> contradiction
      | commit => cases hr.2
  | commit location outcome =>
    simp only [step] at hs
    split at hs <;> obtain ⟨rfl, rfl⟩ := Prod.mk.inj hs
    · exact .inl ⟨rfl, rfl⟩
    · exact .inr ⟨rfl, rfl⟩
  | close =>
    obtain ⟨rfl, rfl⟩ := Prod.mk.inj hs
    exact ⟨rfl, rfl⟩

end Consumer
end Mic3
