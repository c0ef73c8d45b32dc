import Mic3.Submission

/-! `SqlAlchemyModelCatalog.register`: create a model's release, or edit the one it has for the image
unless accepted unfinished runs use a mode that changes. -/
namespace Mic3
open Relational

namespace Catalog

inductive Pc where
  | insertModel
  | lockModel (inserted : Bool)
  | selectReleases (model : ModelRow) (inserted : Bool)
  | lockReleases (model : ModelRow) (inserted : Bool) (remaining : List UUID)
      (found : List ModelReleaseRow)
  | insertRelease (model : ModelRow) (inserted : Bool)
  | activeModes (model : ModelRow) (inserted : Bool) (release : ModelReleaseRow)
  | commit (r : Registration)

/-- `_snapshot(release, model)` of what is about to be committed. -/
def snapshot (definition : ReleaseDefinition) (id : UUID) : Except Raised ModelRelease := do
  let execution ← ExecutionDefinition.fromDict definition.executionDefinition.toDict
  return ⟨id, { definition with executionDefinition := execution }⟩

/-- The checks before a release is edited. -/
def ensureEditable (t : Tables) (definition : ReleaseDefinition) (release : ModelReleaseRow) :
    Except Raised Unit := do
  let current ← ExecutionDefinition.fromDict release.executionDefinition
  ensureActiveModesUnchanged current definition.executionDefinition (t.activeModes release.id)

def step (definition : ReleaseDefinition) (w : World) (i : Input) :
    Pc → Effect × Progress Pc ModelRelease
  -- ON CONFLICT DO NOTHING: waits for another insertion of the key, not for a row lock.
  | .insertModel =>
    if (w.tables.models.find? definition.modelId).isSome then (.read, .running (.lockModel false))
    else (.lock (.model definition.modelId), .running (.lockModel true))
  | .lockModel inserted =>
    let row := if inserted then some ⟨definition.modelId, definition.displayName⟩
      else w.tables.models.find? definition.modelId
    match row with
    | none => (.rollback, .raised .attributeError)
    | some model => (.lock (.model definition.modelId), .running (.selectReleases model inserted))
  | .selectReleases model inserted =>
    let matching := w.tables.matchingReleases definition.modelId definition.imageDigest
    (.read, .running (.lockReleases model inserted matching []))
  -- Every matching row of the statement's snapshot is locked in turn, and read again once it is.
  | .lockReleases model inserted (id :: remaining) found =>
    let current := (w.tables.releases.find? id).filter fun row =>
      row.modelId = definition.modelId ∧ row.imageDigest = definition.imageDigest
    (.lock (.release id), .running (.lockReleases model inserted remaining (found ++ current.toList)))
  | .lockReleases model inserted [] [] => (.read, .running (.insertRelease model inserted))
  | .lockReleases model inserted [] (release :: _) =>
    (.read, .running (.activeModes model inserted release))
  | .insertRelease model inserted =>
    if (w.tables.releases.find? i.uuid).isSome then (.rollback, .raised .integrityError)
    else
      let row : ModelReleaseRow := ⟨i.uuid, definition.modelId, definition.imageDigest,
        definition.executionDefinition.toDict, i.createdAt⟩
      (.lock (.release i.uuid), .running (.commit ⟨model, inserted, definition.displayName, .create row⟩))
  | .activeModes model inserted release =>
    attempt (ensureEditable w.tables definition release) fun _ =>
      (.read, .running (.commit ⟨model, inserted, definition.displayName,
        .edit release definition.executionDefinition.toDict⟩))
  | .commit r =>
    let id := match r.release with
      | .create row => row.id
      | .edit loaded _ => loaded.id
    attempt (snapshot definition id) fun release => (.commit (.register r) [], .returned release)

/-- What a statement of a registration does, the constructor of its `Pc` given. -/
theorem step_cases {definition : ReleaseDefinition} {w : World} {i : Input} {pc : Pc} {e : Effect}
    {r : Progress Pc ModelRelease} :
    step definition w i pc = (e, r) →
    (e = .rollback ∧ ∃ err, r = .raised err) ∨ match pc with
    | .insertModel => (w.tables.models.find? definition.modelId).isSome ∧ e = .read ∧
          r = .running (.lockModel false) ∨
        w.tables.models.find? definition.modelId = none ∧ e = .lock (.model definition.modelId) ∧
          r = .running (.lockModel true)
    | .lockModel inserted => ∃ model, (if inserted then
          some ⟨definition.modelId, definition.displayName⟩
          else w.tables.models.find? definition.modelId) = some model ∧
        e = .lock (.model definition.modelId) ∧ r = .running (.selectReleases model inserted)
    | .selectReleases model inserted => e = .read ∧ r = .running (.lockReleases model inserted
        (w.tables.matchingReleases definition.modelId definition.imageDigest) [])
    | .lockReleases model inserted remaining found =>
        (∃ id ids, remaining = id :: ids ∧ e = .lock (.release id) ∧
          r = .running (.lockReleases model inserted ids (found ++ ((w.tables.releases.find? id).filter
            fun row => row.modelId = definition.modelId ∧ row.imageDigest = definition.imageDigest).toList))) ∨
        (remaining = [] ∧ found = [] ∧ e = .read ∧ r = .running (.insertRelease model inserted)) ∨
        remaining = [] ∧ ∃ release others, found = release :: others ∧ e = .read ∧
          r = .running (.activeModes model inserted release)
    | .insertRelease model inserted => w.tables.releases.find? i.uuid = none ∧ ∃ row, e = .lock (.release row.id) ∧
        row = ⟨i.uuid, definition.modelId, definition.imageDigest,
          definition.executionDefinition.toDict, i.createdAt⟩ ∧
        r = .running (.commit ⟨model, inserted, definition.displayName, .create row⟩)
    | .activeModes model inserted release => ensureEditable w.tables definition release = .ok () ∧
        e = .read ∧ r = .running (.commit ⟨model, inserted, definition.displayName,
          .edit release definition.executionDefinition.toDict⟩)
    | .commit registration => e = .commit (.register registration) [] ∧
        ∃ release, r = .returned release := by
  intro hs
  cases pc with
  | insertModel =>
    simp only [step] at hs
    split at hs <;> obtain ⟨rfl, rfl⟩ := Prod.mk.inj hs
    · exact .inr (.inl ⟨‹_›, rfl, rfl⟩)
    · exact .inr (.inr ⟨Option.not_isSome_iff_eq_none.mp ‹_›, rfl, rfl⟩)
  | lockModel inserted =>
    simp only [step] at hs
    split at hs <;> obtain ⟨rfl, rfl⟩ := Prod.mk.inj hs
    · exact .inl ⟨rfl, _, rfl⟩
    · exact .inr ⟨_, ‹_›, rfl, rfl⟩
  | selectReleases model inserted =>
    obtain ⟨rfl, rfl⟩ := Prod.mk.inj hs
    exact .inr ⟨rfl, rfl⟩
  | lockReleases model inserted remaining found =>
    cases remaining with
    | cons id ids =>
      obtain ⟨rfl, rfl⟩ := Prod.mk.inj hs
      exact .inr (.inl ⟨id, ids, rfl, rfl, rfl⟩)
    | nil =>
      cases found with
      | nil =>
        obtain ⟨rfl, rfl⟩ := Prod.mk.inj hs
        exact .inr (.inr (.inl ⟨rfl, rfl, rfl, rfl⟩))
      | cons release others =>
        obtain ⟨rfl, rfl⟩ := Prod.mk.inj hs
        exact .inr (.inr (.inr ⟨rfl, release, others, rfl, rfl, rfl⟩))
  | insertRelease model inserted =>
    simp only [step] at hs
    split at hs <;> obtain ⟨rfl, rfl⟩ := Prod.mk.inj hs
    · exact .inl ⟨rfl, _, rfl⟩
    · exact .inr ⟨Option.not_isSome_iff_eq_none.mp ‹_›, _, rfl, rfl, rfl⟩
  | activeModes model inserted release =>
    rcases attempt_eq hs with ⟨rfl, err, -, rfl⟩ | ⟨_, hc, hs⟩
    · exact .inl ⟨rfl, err, rfl⟩
    · obtain ⟨rfl, rfl⟩ := Prod.mk.inj hs
      exact .inr ⟨hc, rfl, rfl⟩
  | commit registration =>
    rcases attempt_eq hs with ⟨rfl, err, -, rfl⟩ | ⟨release, -, hs⟩
    · exact .inl ⟨rfl, err, rfl⟩
    · obtain ⟨rfl, rfl⟩ := Prod.mk.inj hs
      exact .inr ⟨rfl, release, rfl⟩

end Catalog
end Mic3
