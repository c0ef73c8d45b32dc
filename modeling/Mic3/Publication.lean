import Mic3.Submission

/-! `PublishOutbox.execute`: claim unpublished events with their row locks, send each and wait for its
acknowledgement, and mark them in the commit that ends the batch. -/
namespace Mic3
open Relational

/-- A timezone-aware datetime when it has an offset. -/
structure Datetime where
  instant : Time
  utcoffset : Option ℤ
  deriving DecidableEq

structure Publisher where
  limit : ℤ
  requestsTopic : String
  eventsTopic : String

def publishedTypes : List String := ["run.requested", "run.succeeded", "run.failed"]

def Publisher.topic (publisher : Publisher) (eventType : String) : String :=
  if eventType = "run.requested" then publisher.requestsTopic else publisher.eventsTopic

/-- The version-one envelope of an event. -/
def envelope (isoformat : Datetime → String) (event : OutboxEvent) (offset : ℤ) : Json :=
  .obj [("schema_version", .int 1), ("event_id", .str event.id.str), ("run_id", .str event.runId.str),
    ("event_type", .str event.eventType),
    ("created_at", .str (isoformat ⟨event.createdAt, some offset⟩))]

def encodeEvent (isoformat : Datetime → String) (event : OutboxEvent) (offset : ℤ) : Message where
  key := some (utf8 event.runId.str.toList)
  value := some (utf8 ((envelope isoformat event offset).dumps false true))

namespace PublishOutbox

inductive Pc where
  | select
  | lockRows (remaining : List UUID) (claimed : List OutboxEvent)
  /-- The batch in order: the events marked so far with their times, and those still to send. -/
  | publish (marked : List (OutboxEvent × Time)) (todo : List OutboxEvent)
  | confirm (marked : List (OutboxEvent × Time)) (event : OutboxEvent) (todo : List OutboxEvent)

/-- The values the flush sends for the marked rows. -/
def marks (marked : List (OutboxEvent × Time)) : List (UUID × Time) :=
  marked.map fun (event, time) => (event.id, time)

def step (isoformat : Datetime → String) (publisher : Publisher) (p : Pid) (w : World) (i : Input) :
    Pc → Effect × Progress Pc ℕ
  | .select =>
    if ¬ (1 ≤ publisher.limit ∧ publisher.limit ≤ 100) then (.read, .raised .valueError)
    else (.read, .running (.lockRows w.tables.unpublished []))
  -- SKIP LOCKED: a row another transaction holds is passed over, and one it published in the
  -- meantime no longer matches.
  | .lockRows (id :: remaining) claimed =>
    if publisher.limit ≤ claimed.length then (.read, .running (.publish [] claimed))
    else if (w.pg.locks.acquire p (.event id)).isNone then (.read, .running (.lockRows remaining claimed))
    else
      let current := (w.tables.outbox.find? id).filter fun event => event.publishedAt = none
      (.lock (.event id), .running (.lockRows remaining (claimed ++ current.toList)))
  | .lockRows [] claimed => (.read, .running (.publish [] claimed))
  | .publish marked (event :: todo) =>
    if event.eventType ∉ publishedTypes then
      (.rollback, .raised (.publicationError "Unsupported outbox event type."))
    else (.produce ⟨event.id, publisher.topic event.eventType, encodeEvent isoformat event i.offset⟩,
      .running (.confirm marked event todo))
  | .publish marked [] =>
    (.commit (.publish (marks marked)) [.published (marked.map (·.1.id))], .returned marked.length)
  | .confirm marked event todo =>
    if i.fault then (.rollback, .raised (.publicationError "Kafka delivery was not acknowledged."))
    else (.acknowledge event.id, .running (.publish (marked ++ [(event, i.now)]) todo))

/-- What a statement of a publication does, the constructor of its `Pc` given. -/
theorem step_cases {isoformat : Datetime → String} {publisher : Publisher} {p : Pid} {w : World}
    {i : Input} {pc : Pc} {e : Effect} {r : Progress Pc ℕ} :
    step isoformat publisher p w i pc = (e, r) →
    ((e = .read ∨ e = .rollback) ∧ ∃ err, r = .raised err) ∨ match pc with
    | .select => e = .read ∧ r = .running (.lockRows w.tables.unpublished [])
    | .lockRows remaining claimed =>
        (e = .read ∧ r = .running (.publish [] claimed)) ∨
        ∃ id ids, remaining = id :: ids ∧
          (e = .read ∧ r = .running (.lockRows ids claimed) ∨
            e = .lock (.event id) ∧ r = .running (.lockRows ids (claimed ++
              ((w.tables.outbox.find? id).filter fun event => event.publishedAt = none).toList)))
    | .publish marked todo =>
        (∃ event rest, todo = event :: rest ∧ event.eventType ∈ publishedTypes ∧
          e = .produce ⟨event.id, publisher.topic event.eventType, encodeEvent isoformat event i.offset⟩ ∧
          r = .running (.confirm marked event rest)) ∨
        todo = [] ∧ e = .commit (.publish (marks marked)) [.published (marked.map (·.1.id))] ∧
          r = .returned marked.length
    | .confirm marked event todo => e = .acknowledge event.id ∧
        r = .running (.publish (marked ++ [(event, i.now)]) todo) := by
  intro hs
  cases pc with
  | select =>
    simp only [step] at hs
    split at hs <;> obtain ⟨rfl, rfl⟩ := Prod.mk.inj hs
    · exact .inl ⟨.inl rfl, _, rfl⟩
    · exact .inr ⟨rfl, rfl⟩
  | lockRows remaining claimed =>
    cases remaining with
    | nil =>
      obtain ⟨rfl, rfl⟩ := Prod.mk.inj hs
      exact .inr (.inl ⟨rfl, rfl⟩)
    | cons id ids =>
      simp only [step] at hs
      split at hs
      · obtain ⟨rfl, rfl⟩ := Prod.mk.inj hs
        exact .inr (.inl ⟨rfl, rfl⟩)
      · split at hs <;> obtain ⟨rfl, rfl⟩ := Prod.mk.inj hs
        · exact .inr (.inr ⟨id, ids, rfl, .inl ⟨rfl, rfl⟩⟩)
        · exact .inr (.inr ⟨id, ids, rfl, .inr ⟨rfl, rfl⟩⟩)
  | publish marked todo =>
    cases todo with
    | nil =>
      obtain ⟨rfl, rfl⟩ := Prod.mk.inj hs
      exact .inr (.inr ⟨rfl, rfl, rfl⟩)
    | cons event rest =>
      by_cases ht : event.eventType ∉ publishedTypes
      · obtain ⟨rfl, rfl⟩ := Prod.mk.inj ((if_pos ht).symm.trans hs)
        exact .inl ⟨.inr rfl, _, rfl⟩
      · obtain ⟨rfl, rfl⟩ := Prod.mk.inj ((if_neg ht).symm.trans hs)
        exact .inr (.inl ⟨event, rest, rfl, not_not.mp ht, rfl, rfl⟩)
  | confirm marked event todo =>
    simp only [step] at hs
    split at hs <;> obtain ⟨rfl, rfl⟩ := Prod.mk.inj hs
    · exact .inl ⟨.inr rfl, _, rfl⟩
    · exact .inr ⟨rfl, rfl⟩

end PublishOutbox
end Mic3
