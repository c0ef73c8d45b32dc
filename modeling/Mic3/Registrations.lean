import Mic3.AcceptedWork
import Mic3.Emissions

/-! Registrations are atomic and unique. The model's lock is held from before its releases are read until the
new row is committed, so a model has one release for an image; and the call writes nothing before its COMMIT. -/
namespace Mic3
open Relational Interleaving

def ModelReleaseRow.IsFor (row : ModelReleaseRow) (definition : ReleaseDefinition) : Prop :=
  row.modelId = definition.modelId ∧ row.imageDigest = definition.imageDigest

instance (row : ModelReleaseRow) (definition : ReleaseDefinition) : Decidable (row.IsFor definition) :=
  inferInstanceAs (Decidable (_ ∧ _))

/-- Every stored definition reads back, and a model has at most one release for an image. -/
structure Tables.Catalogued (t : Tables) : Prop where
  reads : ∀ id row, t.releases.find? id = some row →
    ∃ execution, ExecutionDefinition.fromDict row.executionDefinition = .ok execution
  unique : ∀ definition id id' row row', t.releases.find? id = some row → t.releases.find? id' = some row' →
    row.IsFor definition → row'.IsFor definition → id = id'

/-- What a registration leaves: the model under the definition's name, and one release that describes it. -/
structure Catalog.Registered (definition : ReleaseDefinition) (t t' : Tables) : Prop where
  others : t' = { t with models := t'.models, releases := t'.releases }
  models : ∀ id, t'.models.find? id =
    if id = definition.modelId then some ⟨definition.modelId, definition.displayName⟩ else t.models.find? id
  release : ∃ row, row.IsFor definition ∧
    row.executionDefinition = definition.executionDefinition.toDict ∧
    ExecutionDefinition.fromDict row.executionDefinition = .ok definition.executionDefinition ∧
    (∀ id, t'.releases.find? id = if id = row.id then some row else t.releases.find? id) ∧
    ((∀ id other, t.releases.find? id = some other → ¬ other.IsFor definition) ∧
        t.releases.find? row.id = none ∨
      ∃ old, t.releases.find? row.id = some old ∧ old.IsFor definition ∧
        row = old.edited definition.executionDefinition.toDict)

/-- Releases keep their model and image, and a row is added only under its own lock and its model's. -/
structure Registers (p : Pid) (w w' : World) : Prop where
  releases : ∀ id row, w.tables.releases.find? id = some row → ∃ row',
    w'.tables.releases.find? id = some row' ∧ row'.modelId = row.modelId ∧ row'.imageDigest = row.imageDigest
  added : ∀ id row', w'.tables.releases.find? id = some row' → w.tables.releases.find? id = none →
    w.pg.locks.owner (.model row'.modelId) = some p ∧ w.pg.locks.owner (.release id) = some p
  models : ∀ id, (w.tables.models.find? id).isSome → (w'.tables.models.find? id).isSome
  named : ∀ id, (w'.tables.models.find? id).isSome → w.tables.models.find? id = none →
    w.pg.locks.owner (.model id) = some p

theorem Registers.of_eq {p : Pid} {w w' : World} (hmodels : w'.tables.models = w.tables.models)
    (hreleases : w'.tables.releases = w.tables.releases) : Registers p w w' where
  releases := fun id row hrow => ⟨row, hreleases ▸ hrow, rfl, rfl⟩
  added := by
    intro id row' hrow' hnone
    rw [hreleases, hnone] at hrow'
    contradiction
  models := fun id hm => hmodels ▸ hm
  named := by
    intro id hm hnone
    rw [hmodels, hnone] at hm
    contradiction

namespace Catalog

/-- The model row the call writes, and whether it has to be inserted. -/
structure Models (modelId : String) (t : Tables) (model : ModelRow) (inserted : Bool) : Prop where
  id : model.id = modelId
  present : (t.models.find? modelId).isSome = !inserted

/-- No release is for this model and image. -/
def Absent (definition : ReleaseDefinition) (t : Tables) : Prop :=
  ∀ id row, t.releases.find? id = some row → ¬ row.IsFor definition

/-- What a registration knows of the catalog at each statement. -/
def Finds (definition : ReleaseDefinition) (p : Pid) (w : World) : Pc → Prop
  | .insertModel => True
  | .lockModel inserted => (w.tables.models.find? definition.modelId).isSome = !inserted
  | .selectReleases model inserted => Models definition.modelId w.tables model inserted
  | .lockReleases model inserted remaining found =>
    Models definition.modelId w.tables model inserted ∧ (∀ row ∈ found, row.IsFor definition) ∧
      ∀ id row, w.tables.releases.find? id = some row → row.IsFor definition →
        id ∈ remaining ∨ id ∈ found.map ModelReleaseRow.id
  | .insertRelease model inserted =>
    Models definition.modelId w.tables model inserted ∧ Absent definition w.tables
  | .activeModes model inserted release =>
    Models definition.modelId w.tables model inserted ∧ release.IsFor definition
  | .commit r => Models definition.modelId w.tables r.model r.inserted ∧
    r.displayName = definition.displayName ∧ match r.release with
      | .create row => row.IsFor definition ∧
          row.executionDefinition = definition.executionDefinition.toDict ∧ Absent definition w.tables ∧
          w.tables.releases.find? row.id = none ∧ w.pg.locks.owner (.release row.id) = some p
      | .edit loaded document => loaded.IsFor definition ∧
          document = definition.executionDefinition.toDict

end Catalog

def Proc.Finds (p : Pid) (w : World) : Proc → Prop
  | .register definition pc => Catalog.Finds definition.1 p w pc
  | _ => True

def registrations : Contract Pid World Proc :=
  ⟨fun w => w.tables.Catalogued, fun p l w => l.Finds p w, Registers⟩

section Effects
variable {p q : Pid} {w w' : World} {i : Input} {e : Effect} {t t' : Tables} {definition : ReleaseDefinition}

/-- Only registrations write models and releases. -/
theorem catalog_apply (he : ∀ r entries, e ≠ .commit (.register r) entries) (ha : w.apply p e = some w') :
    w'.tables.models = w.tables.models ∧ w'.tables.releases = w.tables.releases := by
  by_cases hc : e.commits = false
  · have hsame := tables_apply hc ha
    exact ⟨congrArg Tables.models hsame, congrArg Tables.releases hsame⟩
  · obtain ⟨change, entries, rfl⟩ := (Effect.commits_iff e).mp (Bool.not_eq_false _ ▸ hc)
    obtain ⟨tables, ht, rfl⟩ := commit_apply ha
    cases change with
    | nothing =>
      obtain rfl := Change.nothing_apply ht
      exact ⟨rfl, rfl⟩
    | submit row event =>
      obtain ⟨runs, outbox, -, -, rfl⟩ := Change.submit_apply ht
      exact ⟨rfl, rfl⟩
    | outcome u =>
      obtain ⟨artifacts, outbox, -, -, rfl⟩ := Change.outcome_apply ht
      exact ⟨rfl, rfl⟩
    | register r => exact absurd rfl (he r entries)
    | publish marks =>
      obtain rfl := Change.publish_apply ht
      exact ⟨rfl, rfl⟩
    | reject message =>
      obtain ⟨rejected, -, rfl⟩ := Change.reject_apply ht
      exact ⟨rfl, rfl⟩

theorem mem_matchingReleases {id : UUID} {row : ModelReleaseRow} (hrow : t.releases.find? id = some row)
    (hfor : row.IsFor definition) : id ∈ t.matchingReleases definition.modelId definition.imageDigest := by
  refine List.mem_map.mpr ⟨row, ?_, Table.key_of_find? hrow⟩
  rw [(orderedBy_perm ..).mem_iff, List.mem_filter]
  exact ⟨Table.mem_of_find? hrow, decide_eq_true hfor⟩

theorem Catalog.writeModel_find? {modelId : String} {r : Registration} {models : Table ModelRow}
    (hmodel : Models modelId t r.model r.inserted) (h : Change.writeModel t.models r = some models) (id : String) :
    models.find? id = if id = modelId then some ⟨modelId, r.displayName⟩ else t.models.find? id := by
  obtain ⟨hid, hpresent⟩ := hmodel
  unfold Change.writeModel at h
  split at h
  · -- A new model is inserted under the name it was renamed to.
    rw [Table.find?_insert h]
    have hkey : key (r.model.renamed r.displayName) = modelId := hid
    rw [hkey]
    split
    · rw [ModelRow.renamed, hid]
    · rfl
  · rename_i hinserted
    obtain rfl := Option.some.inj h
    rw [Table.find?_modify (f := ModelRow.renamed r.displayName) fun _ => rfl, hid]
    split
    · obtain ⟨model, hmodel⟩ := Option.isSome_iff_exists.mp
        (hpresent.trans (Bool.not_eq_true' _ ▸ Bool.eq_false_of_not_eq_true hinserted))
      have hkey : model.id = modelId := Table.key_of_find? hmodel
      rw [hmodel, Option.map_some, ModelRow.renamed, hkey]
    · rfl

/-- What the COMMIT of a registration leaves. -/
theorem Catalog.registered {definition : Registrable} {r : Registration}
    (hk : Finds definition.1 p w (.commit r))
    (hv : ∀ h ∈ holds definition.1.modelId (.commit r), h.Valid p w)
    (h : (Change.register r).apply w.tables = some t') : Registered definition.1 w.tables t' := by
  obtain ⟨hmodel, hname, hk⟩ := hk
  obtain ⟨config, hconfig⟩ := definition.2
  have hread := RegisterRelease.definition_read hconfig
  obtain ⟨models, releases, hmodels, hreleases, rfl⟩ := Change.register_apply h
  refine ⟨rfl, fun id => hname ▸ writeModel_find? hmodel hmodels id, ?_⟩
  cases hr : r.release with
  | create row =>
    rw [hr] at hk hreleases
    obtain ⟨hfor, hdocument, habsent, hfree, -⟩ := hk
    refine ⟨row, hfor, hdocument, hdocument ▸ hread, fun id => ?_, .inl ⟨habsent, hfree⟩⟩
    exact Table.find?_insert hreleases
  | edit loaded document =>
    rw [hr] at hk hreleases
    obtain ⟨hfor, rfl⟩ := hk
    obtain rfl := Option.some.inj hreleases
    have hheld : (Hold.release loaded).Valid p w := hv _ (by simp [holds, hr])
    refine ⟨loaded.edited definition.1.executionDefinition.toDict, hfor, rfl, hread, fun id => ?_,
      .inr ⟨loaded, hheld.2, hfor, rfl⟩⟩
    rw [Table.find?_modify (f := ModelReleaseRow.edited _) fun _ => rfl, hheld.2]
    rfl

/-- No constraint refuses a registration. -/
theorem Catalog.register_isSome {definition : ReleaseDefinition} {r : Registration}
    (hk : Finds definition p w (.commit r)) : ∃ t', (Change.register r).apply w.tables = some t' := by
  obtain ⟨⟨hid, hpresent⟩, -, hk⟩ := hk
  have hmodels : ∃ models, Change.writeModel w.tables.models r = some models := by
    unfold Change.writeModel
    split
    · rename_i hinserted
      refine Table.insert_isSome ?_
      have hkey : key (r.model.renamed r.displayName) = definition.modelId := hid
      rw [hkey]
      simpa [hinserted] using hpresent
    · exact ⟨_, rfl⟩
  have hreleases : ∃ releases, Change.writeRelease w.tables.releases r.release = some releases := by
    cases hr : r.release with
    | create row =>
      rw [hr] at hk
      exact Table.insert_isSome hk.2.2.2.1
    | edit loaded document => exact ⟨_, rfl⟩
  obtain ⟨models, hmodels⟩ := hmodels
  obtain ⟨releases, hreleases⟩ := hreleases
  exact ⟨_, by simp only [Change.apply, Change.applyRegister, hmodels, hreleases]; rfl⟩

/-- A release that a registration adds is one whose key it has locked. -/
theorem Catalog.added_owner {definition : ReleaseDefinition} {r : Registration}
    (hk : Finds definition p w (.commit r)) (h : (Change.register r).apply w.tables = some t') {id : UUID}
    {row' : ModelReleaseRow} (hrow' : t'.releases.find? id = some row')
    (hnone : w.tables.releases.find? id = none) : w.pg.locks.owner (.release id) = some p := by
  obtain ⟨-, -, hk⟩ := hk
  obtain ⟨models, releases, -, hreleases, rfl⟩ := Change.register_apply h
  cases hr : r.release with
  | create row =>
    rw [hr] at hk hreleases
    rw [Table.find?_insert hreleases] at hrow'
    split at hrow'
    · rename_i hid
      exact hid ▸ hk.2.2.2.2
    · cases (hrow'.symm.trans hnone)
  | edit loaded document =>
    rw [hr] at hreleases
    obtain rfl := Option.some.inj hreleases
    have hfind := hrow'
    rw [Table.find?_modify (f := ModelReleaseRow.edited document) fun _ => rfl] at hfind
    split at hfind
    · rename_i hid
      rw [← hid, hnone] at hfind
      contradiction
    · cases (hfind.symm.trans hnone)

theorem Catalog.Registered.catalogued (h : Registered definition t t') (hc : t.Catalogued) : t'.Catalogued := by
  obtain ⟨row, hfor, -, hread, hfind, horigin⟩ := h.release
  -- The written row is the only one for its model and image that there may have been.
  have hsole : ∀ id other, t.releases.find? id = some other → other.IsFor definition → id = row.id := by
    intro id other hother hsame
    rcases horigin with ⟨habsent, -⟩ | ⟨old, hold, hfor', -⟩
    · exact absurd hsame (habsent id other hother)
    · exact hc.unique definition id row.id other old hother hold hsame hfor'
  refine ⟨fun id other hother => ?_, fun definition' id id' r r' hr hr' hr₁ hr₁' => ?_⟩
  · rw [hfind] at hother
    split at hother
    · exact ⟨_, Option.some.inj hother ▸ hread⟩
    · exact hc.reads id other hother
  · rw [hfind] at hr hr'
    have hsame (other : ModelReleaseRow) (hother : other.IsFor definition') (hrow : row.IsFor definition') :
        other.IsFor definition :=
      ⟨hother.1.trans (hrow.1.symm.trans hfor.1), hother.2.trans (hrow.2.symm.trans hfor.2)⟩
    split at hr <;> split at hr'
    · exact ‹id = row.id›.trans ‹id' = row.id›.symm
    · obtain rfl := Option.some.inj hr
      exact absurd (hsole id' r' hr' (hsame r' hr₁' hr₁)) ‹_›
    · obtain rfl := Option.some.inj hr'
      exact absurd (hsole id r hr (hsame r hr₁ hr₁')) ‹_›
    · exact hc.unique definition' id id' r r' hr hr' hr₁ hr₁'

theorem Catalog.Registered.registers (h : Registered definition w.tables w'.tables)
    (hmodel : w.pg.locks.owner (.model definition.modelId) = some p)
    (hrelease : ∀ id row', w'.tables.releases.find? id = some row' → w.tables.releases.find? id = none →
      w.pg.locks.owner (.release id) = some p) : Registers p w w' := by
  obtain ⟨row, hfor, -, -, hfind, horigin⟩ := h.release
  refine ⟨fun id old hold => ?_, fun id row' hrow' hnone => ⟨?_, hrelease id row' hrow' hnone⟩, fun id hm => ?_,
    fun id hm hnone => ?_⟩
  · rw [hfind]
    split
    · rename_i hid
      rcases horigin with ⟨-, hfree⟩ | ⟨old', hold', -, rfl⟩
      · rw [← hid, hold] at hfree
        contradiction
      · rw [← hid, hold] at hold'
        obtain rfl := Option.some.inj hold'
        exact ⟨_, rfl, rfl, rfl⟩
    · exact ⟨old, hold, rfl, rfl⟩
  · rw [hfind] at hrow'
    split at hrow'
    · obtain rfl := Option.some.inj hrow'
      exact hfor.1 ▸ hmodel
    · cases (hrow'.symm.trans hnone)
  · rw [h.models]
    split
    · rfl
    · exact hm
  · rw [h.models] at hm
    split at hm
    · rename_i hid
      exact hid ▸ hmodel
    · rw [hnone] at hm
      contradiction

/-- A registration knows what it needs at each statement, and its COMMIT keeps the catalog's promises. -/
theorem Catalog.finds_step {definition : Registrable} {pc : Catalog.Pc} {r : Progress Catalog.Pc ModelRelease}
    (hs : step definition.1 w i pc = (e, r)) (hk : Finds definition.1 p w pc)
    (hv : ∀ h ∈ holds definition.1.modelId pc, h.Valid p w) (hc : w.tables.Catalogued)
    (ha : w.apply p e = some w') :
    w'.tables.Catalogued ∧ r.All (Finds definition.1 p w') ∧ Registers p w w' := by
  have hsame (he : e.commits = false) : w'.tables.Catalogued ∧ Registers p w w' := by
    have htables := tables_apply he ha
    exact ⟨htables ▸ hc, .of_eq (by rw [htables]) (by rw [htables])⟩
  have hstay (he : e.continues = true) {model : ModelRow} {inserted : Bool}
      (h : Models definition.1.modelId w.tables model inserted) :
      Models definition.1.modelId w'.tables model inserted := (continues_apply he ha).1 ▸ h
  rcases step_cases hs with ⟨rfl, err, rfl⟩ | hcases
  · exact ⟨(hsame rfl).1, trivial, (hsame rfl).2⟩
  cases pc with
  | insertModel =>
    rcases hcases with ⟨hsome, rfl, rfl⟩ | ⟨hnone, rfl, rfl⟩
    · refine ⟨(hsame rfl).1, ?_, (hsame rfl).2⟩
      obtain rfl := Option.some.inj ha
      exact hsome
    · refine ⟨(hsame rfl).1, ?_, (hsame rfl).2⟩
      change (w'.tables.models.find? definition.1.modelId).isSome = !true
      rw [(continues_apply rfl ha).1, hnone]
      rfl
  | lockModel inserted =>
    obtain ⟨model, hmodel, rfl, rfl⟩ := hcases
    refine ⟨(hsame rfl).1, hstay rfl ⟨?_, hk⟩, (hsame rfl).2⟩
    cases inserted with
    | true =>
      obtain rfl := Option.some.inj hmodel
      rfl
    | false =>
      have hfind : w.tables.models.find? definition.1.modelId = some model := hmodel
      exact Table.key_of_find? hfind
  | selectReleases model inserted =>
    obtain ⟨rfl, rfl⟩ := hcases
    obtain rfl := Option.some.inj ha
    refine ⟨hc, ⟨hk, List.forall_mem_nil _, fun id row hrow hfor => .inl ?_⟩, (hsame rfl).2⟩
    exact mem_matchingReleases hrow hfor
  | lockReleases model inserted remaining found =>
    obtain ⟨hmodels, hfound, hall⟩ := hk
    rcases hcases with ⟨id, ids, rfl, rfl, rfl⟩ | ⟨rfl, rfl, rfl, rfl⟩ | ⟨-, release, others, rfl, rfl, rfl⟩
    · refine ⟨(hsame rfl).1, ⟨hstay rfl hmodels, fun row hrow => ?_, fun id' row hrow hfor => ?_⟩, (hsame rfl).2⟩
      · rcases List.mem_append.mp hrow with hrow | hrow
        · exact hfound row hrow
        · obtain ⟨-, hfor⟩ := Option.filter_eq_some_iff.mp (Option.mem_toList.mp hrow)
          exact of_decide_eq_true hfor
      · rw [(continues_apply rfl ha).1] at hrow
        rcases hall id' row hrow hfor with hmem | hmem
        · rcases List.mem_cons.mp hmem with rfl | hmem
          · refine .inr (List.mem_map.mpr ⟨row, List.mem_append_right _ ?_, Table.key_of_find? hrow⟩)
            exact Option.mem_toList.mpr (Option.filter_eq_some_iff.mpr ⟨hrow, decide_eq_true hfor⟩)
          · exact .inl hmem
        · exact .inr (List.map_append ▸ List.mem_append_left _ hmem)
    · obtain rfl := Option.some.inj ha
      refine ⟨hc, ⟨hmodels, fun id row hrow hfor => ?_⟩, (hsame rfl).2⟩
      rcases hall id row hrow hfor with hmem | hmem <;> exact absurd hmem List.not_mem_nil
    · obtain rfl := Option.some.inj ha
      exact ⟨hc, ⟨hmodels, hfound release List.mem_cons_self⟩, (hsame rfl).2⟩
  | insertRelease model inserted =>
    obtain ⟨hmodels, habsent⟩ := hk
    obtain ⟨hfree, row, rfl, rfl, rfl⟩ := hcases
    have htables := (continues_apply rfl ha).1
    refine ⟨(hsame rfl).1, ⟨hstay rfl hmodels, rfl, ⟨rfl, rfl⟩, rfl, ?_, ?_, owner_of_lock ha⟩, (hsame rfl).2⟩
    · rw [htables]
      exact habsent
    · rw [htables]
      exact hfree
  | activeModes model inserted release =>
    obtain ⟨-, rfl, rfl⟩ := hcases
    obtain rfl := Option.some.inj ha
    exact ⟨hc, ⟨hk.1, rfl, hk.2, rfl⟩, (hsame rfl).2⟩
  | commit registration =>
    obtain ⟨rfl, release, rfl⟩ := hcases
    obtain ⟨t', ht, rfl⟩ := commit_apply ha
    have hregistered := registered hk hv ht
    have hmodel : (Hold.lock (.model definition.1.modelId)).Valid p w := hv _ List.mem_cons_self
    refine ⟨hregistered.catalogued hc, trivial, hregistered.registers hmodel fun id row' hrow' hnone => ?_⟩
    exact added_owner hk ht hrow' hnone

/-- Whether a model is there does not change while its row is locked; one that is there stays. -/
theorem Registers.present (h : Registers p w w') (hne : p ≠ q) {modelId : String} {inserted : Bool}
    (hheld : inserted = true → w.pg.locks.owner (.model modelId) = some q)
    (hk : (w.tables.models.find? modelId).isSome = !inserted) :
    (w'.tables.models.find? modelId).isSome = !inserted := by
  cases inserted with
  | false => exact h.models modelId hk
  | true =>
    by_contra hsome
    have howner := h.named modelId (Option.isSome_iff_ne_none.mpr (by simpa using hsome)) (by simpa using hk)
    exact hne (Option.some.inj (howner.symm.trans (hheld rfl)))

/-- While the model is locked, no step of another process adds a release of it. -/
theorem Registers.origin (h : Registers p w w') (hne : p ≠ q)
    (hheld : w.pg.locks.owner (.model definition.modelId) = some q) {id : UUID} {row' : ModelReleaseRow}
    (hrow' : w'.tables.releases.find? id = some row') (hfor : row'.IsFor definition) :
    ∃ row, w.tables.releases.find? id = some row ∧ row.IsFor definition := by
  cases hrow : w.tables.releases.find? id with
  | none =>
    have howner := (h.added id row' hrow' hrow).1
    rw [hfor.1, hheld] at howner
    exact absurd (Option.some.inj howner).symm hne
  | some row =>
    obtain ⟨row₁, hrow₁, hmodel, himage⟩ := h.releases id row hrow
    obtain rfl := Option.some.inj (hrow'.symm.trans hrow₁)
    exact ⟨row, rfl, hmodel.symm.trans hfor.1, himage.symm.trans hfor.2⟩

theorem Catalog.Finds.stable {pc : Catalog.Pc} (hk : Catalog.Finds definition q w pc)
    (hv : ∀ h ∈ holds definition.modelId pc, h.Valid q w) (h : Registers p w w') (hne : p ≠ q)
    (hlocks : ∀ k, w.pg.locks.owner k = some q → w'.pg.locks.owner k = some q) :
    Catalog.Finds definition q w' pc := by
  have hmodels (hheld : w.pg.locks.owner (.model definition.modelId) = some q) {model : ModelRow} {inserted : Bool}
      (hm : Models definition.modelId w.tables model inserted) :
      Models definition.modelId w'.tables model inserted := ⟨hm.id, h.present hne (fun _ => hheld) hm.present⟩
  have habsent (hheld : w.pg.locks.owner (.model definition.modelId) = some q)
      (hm : Absent definition w.tables) : Absent definition w'.tables := by
    intro id row' hrow' hfor
    obtain ⟨row, hrow, hfor⟩ := h.origin hne hheld hrow' hfor
    exact hm id row hrow hfor
  cases pc with
  | insertModel => trivial
  | lockModel inserted =>
    refine h.present hne (fun hi => ?_) hk
    exact hv (.lock (.model definition.modelId)) (by simp [holds, hi])
  | selectReleases model inserted => exact hmodels (hv _ List.mem_cons_self) hk
  | lockReleases model inserted remaining found =>
    have hheld : w.pg.locks.owner (.model definition.modelId) = some q := hv _ List.mem_cons_self
    obtain ⟨hm, hfound, hall⟩ := hk
    refine ⟨hmodels hheld hm, hfound, fun id row' hrow' hfor => ?_⟩
    obtain ⟨row, hrow, hfor⟩ := h.origin hne hheld hrow' hfor
    exact hall id row hrow hfor
  | insertRelease model inserted =>
    have hheld : w.pg.locks.owner (.model definition.modelId) = some q := hv _ List.mem_cons_self
    exact ⟨hmodels hheld hk.1, habsent hheld hk.2⟩
  | activeModes model inserted release => exact ⟨hmodels (hv _ List.mem_cons_self) hk.1, hk.2⟩
  | commit r =>
    have hheld : w.pg.locks.owner (.model definition.modelId) = some q := hv _ List.mem_cons_self
    obtain ⟨hm, hname, hk⟩ := hk
    refine ⟨hmodels hheld hm, hname, ?_⟩
    cases hr : r.release with
    | create row =>
      rw [hr] at hk
      obtain ⟨hfor, hdocument, hnone, hfree, howner⟩ := hk
      refine ⟨hfor, hdocument, habsent hheld hnone, ?_, hlocks _ howner⟩
      -- Only the process that locked the new key could take it.
      by_contra htaken
      obtain ⟨row', hrow'⟩ := Option.ne_none_iff_exists'.mp htaken
      have hother := (h.added row.id row' hrow' hfree).2
      exact hne (Option.some.inj (hother.symm.trans howner))
    | edit loaded document =>
      rw [hr] at hk
      exact hk

end Effects

section Layer
variable {x : External} {p q : Pid} {w w' : World} {i : Input} {e : Effect} {l l' : Proc}

/-- What a process that does not register does to the catalog: nothing. -/
theorem Proc.finds_other (hs : l.next x p w i = (e, l')) (hl : ∀ definition pc, l ≠ .register definition pc)
    (ha : w.apply p e = some w') : l'.Finds p w' ∧ w'.tables.models = w.tables.models ∧
      w'.tables.releases = w.tables.releases := by
  refine ⟨?_, catalog_apply (fun r entries he => ?_) ha⟩
  · cases l with
    | idle | unwinding => obtain ⟨-, rfl⟩ := Prod.mk.inj hs; trivial
    | register definition pc => exact absurd rfl (hl definition pc)
    | _ =>
      obtain ⟨-, rfl⟩ := Prod.mk.inj hs
      exact (Progress.all_true _).proc (Q := fun l => l.Finds p w') (fun _ h => h) trivial
  · generalize hchange : Change.register r = change at he
    cases Proc.commits hs he with
    | register definition r => exact hl definition _ rfl
    | claim worker u started => cases u <;> contradiction
    | reject topic location rejection message => cases message <;> contradiction
    | _ => contradiction

theorem registrations_layer (x : External) : Layer registrations holding x where
  start := fun _ task _ => by cases task <;> trivial
  failing := by
    intro _ l _
    cases l with
    | reconcile worker runId pc => cases pc <;> trivial
    | _ => trivial
  refl := fun _ _ => .of_eq rfl rfl
  step := by
    intro p w i l e l' w' hs ha _ hl _ hc hk
    by_cases hreg : ∃ definition pc, l = .register definition pc
    · obtain ⟨definition, pc, rfl⟩ := hreg
      obtain ⟨rfl, rfl⟩ := Prod.mk.inj hs
      obtain ⟨hc', hnext, hg⟩ := Catalog.finds_step rfl hk hl.valid hc ha
      exact ⟨hc', hnext.proc (Q := fun l => l.Finds p w') (fun _ h => h) trivial, hg⟩
    · obtain ⟨hnext, hmodels, hreleases⟩ := Proc.finds_other hs (fun d pc h => hreg ⟨d, pc, h⟩) ha
      exact ⟨⟨hreleases ▸ hc.reads, hreleases ▸ hc.unique⟩, hnext, .of_eq hmodels hreleases⟩

end Layer

theorem registrations_proof (x : External) :
    registrations.Proof holding (platform x) fun _ _ => True where
  act := by
    intro p a w l w' l' _ ha hinv hl hg hc hk
    exact (registrations_layer x).act (fun _ _ _ => .of_nothing rfl rfl) ha hinv hl hg hc hk
  stable := by
    intro p q l w w' hne _ hl hr hg _ hk
    cases l with
    | register definition pc =>
      exact Catalog.Finds.stable hk hl.valid hg hne fun k hk => hr.locks q k (Ne.symm hne) hk
    | _ => trivial
  env := by
    intro ev w w' _ he _ hc
    obtain ⟨users, hpg⟩ := World.event_pg he
    have hmodels : w'.tables.models = w.tables.models := by rw [World.tables, hpg]
    have hreleases : w'.tables.releases = w.tables.releases := by rw [World.tables, hpg]
    refine ⟨⟨hreleases ▸ hc.reads, hreleases ▸ hc.unique⟩, fun q l hl hk => ?_⟩
    cases l with
    | register definition pc =>
      refine Catalog.Finds.stable hk hl.valid (.of_eq hmodels hreleases) (Nat.succ_ne_self q) fun k hk => ?_
      rw [hpg]
      exact hk
    | _ => trivial

theorem registrations_established (x : External) :
    (registrations.both holding).Established (platform x) (fun _ _ => True) initial :=
  (registrations_proof x).established (holding_established x)
    ⟨⟨fun _ _ h => (by cases h), fun _ _ _ _ _ h => (by cases h)⟩, fun _ => trivial⟩

/-- An accepted unfinished run of the release uses the mode. -/
def Tables.Uses (t : Tables) (releaseId : UUID) (mode : String) : Prop :=
  ∃ row ∈ t.runs.rows, row.modelReleaseId = releaseId ∧ row.Ongoing ∧
    row.parameters.get? "mode" = some (.str mode)

/-- Accepted runs were matched with their release, so each has a text for its mode. -/
theorem Configured.mem_activeModes {w : World} (h : Configured w) {releaseId : UUID} {mode : String} :
    mode ∈ w.tables.activeModes releaseId ↔ w.tables.Uses releaseId mode := by
  constructor
  · intro hmem
    obtain ⟨row, hrow, htext⟩ := List.mem_filterMap.mp (List.mem_dedup.mp hmem)
    obtain ⟨hrow, hactive⟩ := List.mem_filter.mp hrow
    obtain ⟨hid, haccepted, hactive⟩ := of_decide_eq_true hactive
    obtain ⟨release, invocation, -, hruns, -⟩ := h.ongoing row.id row (Table.find?_of_mem hrow) ⟨haccepted, hactive⟩
    obtain ⟨mode', execution, hmode, -⟩ := hruns.mode
    simp only [Tables.modeText, hmode, Option.some.injEq] at htext
    exact ⟨row, hrow, hid, ⟨haccepted, hactive⟩, htext ▸ hmode⟩
  · rintro ⟨row, hrow, hid, hongoing, hmode⟩
    exact Mic3.mem_activeModes hrow hongoing hid hmode

theorem ensureActiveModesUnchanged_error {current proposed : ExecutionDefinition} {modes : List String}
    {err : Raised} (h : ensureActiveModesUnchanged current proposed modes = .error err) :
    ∃ mode ∈ modes, current.mode? mode ≠ proposed.mode? mode ∧ err = protectedMode mode := by
  induction modes with
  | nil => contradiction
  | cons mode modes ih =>
    unfold ensureActiveModesUnchanged at h
    split at h
    · exact ⟨mode, List.mem_cons_self, ‹_›, (Except.error.inj h).symm⟩
    · obtain ⟨mode', hmem, hne, herr⟩ := ih h
      exact ⟨mode', List.mem_cons_of_mem _ hmem, hne, herr⟩

namespace Catalog

/-- The statements left, the COMMIT included: the model has at most one release for the image to lock. -/
def left : Pc → ℕ
  | .insertModel => 7
  | .lockModel _ => 6
  | .selectReleases .. => 5
  | .lockReleases _ _ remaining _ => 3 + remaining.length
  | .insertRelease .. | .activeModes .. => 2
  | .commit _ => 1

/-- How a statement leaves a registration that meets no database error: closer to its end, returned from a
COMMIT that takes effect, or raised because the new key is taken or a mode that is in use would change. -/
def Leaves (definition : ReleaseDefinition) (p : Pid) (w : World) (i : Input) (pc : Pc) (e : Effect) :
    Progress Pc ModelRelease → Prop
  | .running pc' => left pc' < left pc
  | .returned release => release.definition = definition ∧ ∃ r w' row, pc = .commit r ∧
      w.apply p e = some w' ∧ w'.tables.releases.find? release.id = some row ∧ row.IsFor definition
  | .raised err => e = .rollback ∧
      ((∃ model inserted, pc = .insertRelease model inserted ∧ (w.tables.releases.find? i.uuid).isSome) ∨
        ∃ model inserted release stored mode, pc = .activeModes model inserted release ∧
          ExecutionDefinition.fromDict release.executionDefinition = .ok stored ∧
          w.tables.Uses release.id mode ∧
          stored.mode? mode ≠ definition.executionDefinition.mode? mode ∧ err = protectedMode mode)

section Steps
variable {p : Pid} {w : World} {i : Input} {e : Effect} {definition : Registrable}

theorem matching_le_one {t : Tables} (hc : t.Catalogued) (definition : ReleaseDefinition) :
    (t.matchingReleases definition.modelId definition.imageDigest).length ≤ 1 := by
  have hnodup : (t.matchingReleases definition.modelId definition.imageDigest).Nodup :=
    ((orderedBy_perm ..).map _).nodup_iff.mpr (t.releases.nodup.sublist (List.filter_sublist.map key))
  have hfor : ∀ id ∈ t.matchingReleases definition.modelId definition.imageDigest, ∃ row,
      t.releases.find? id = some row ∧ row.IsFor definition := by
    intro id hid
    obtain ⟨row, hrow, rfl⟩ := List.mem_map.mp hid
    obtain ⟨hrow, hfor⟩ := List.mem_filter.mp ((orderedBy_perm ..).mem_iff.mp hrow)
    exact ⟨row, Table.find?_of_mem hrow, of_decide_eq_true hfor⟩
  generalize t.matchingReleases definition.modelId definition.imageDigest = ids at hnodup hfor
  match ids with
  | [] => exact Nat.zero_le 1
  | [_] => exact le_rfl
  | id :: id' :: ids =>
    obtain ⟨row, hrow, hrowFor⟩ := hfor id List.mem_cons_self
    obtain ⟨row', hrow', hrowFor'⟩ := hfor id' (List.mem_cons_of_mem _ List.mem_cons_self)
    have heq := hc.unique definition id id' row row' hrow hrow' hrowFor hrowFor'
    exact absurd (heq ▸ List.mem_cons_self) (List.nodup_cons.mp hnodup).1

/-- The check under the release lock, of a release whose definition reads back. -/
theorem editable_iff {w : World} (hconf : Configured w) {definition : ReleaseDefinition} {release : ModelReleaseRow}
    {stored : ExecutionDefinition} (hstored : ExecutionDefinition.fromDict release.executionDefinition = .ok stored) :
    ensureEditable w.tables definition release = .ok () ↔ ∀ mode, w.tables.Uses release.id mode →
      stored.mode? mode = definition.executionDefinition.mode? mode := by
  have heq : ensureEditable w.tables definition release = ensureActiveModesUnchanged stored
      definition.executionDefinition (w.tables.activeModes release.id) := by
    simp only [ensureEditable, hstored]
    rfl
  rw [heq, ensureActiveModesUnchanged_ok]
  exact forall_congr' fun mode => imp_congr_left hconf.mem_activeModes

/-- The release whose id the call returns. -/
theorem registered_row {r : Registration} {t' : Tables} (hk : Finds definition.1 p w (.commit r))
    (hv : ∀ h ∈ holds definition.1.modelId (.commit r), h.Valid p w)
    (h : (Change.register r).apply w.tables = some t') :
    ∃ row, t'.releases.find? (match r.release with
      | .create row => row.id
      | .edit loaded _ => loaded.id) = some row ∧ row.IsFor definition.1 := by
  obtain ⟨-, -, hk⟩ := hk
  obtain ⟨models, releases, -, hreleases, rfl⟩ := Change.register_apply h
  cases hr : r.release with
  | create row =>
    rw [hr] at hk hreleases
    exact ⟨row, (Table.find?_insert hreleases).trans (if_pos rfl), hk.1⟩
  | edit loaded document =>
    rw [hr] at hk hreleases
    obtain rfl := Option.some.inj hreleases
    have hheld : (Hold.release loaded).Valid p w := hv _ (by simp [holds, hr])
    refine ⟨loaded.edited document, ?_, hk.1⟩
    rw [Table.find?_modify (f := ModelReleaseRow.edited document) fun _ => rfl, if_pos rfl, hheld.2]
    rfl

theorem leaves {pc : Pc} {r : Progress Pc ModelRelease} (hs : step definition.1 w i pc = (e, r))
    (hk : Finds definition.1 p w pc) (hv : ∀ h ∈ holds definition.1.modelId pc, h.Valid p w)
    (hc : w.tables.Catalogued) (hconf : Configured w) : Leaves definition.1 p w i pc e r := by
  cases pc with
  | insertModel =>
    simp only [step] at hs
    split at hs <;> obtain ⟨rfl, rfl⟩ := Prod.mk.inj hs <;> exact Nat.lt_succ_self 6
  | lockModel inserted =>
    have hrow : ∃ model, (if inserted then some ⟨definition.1.modelId, definition.1.displayName⟩
        else w.tables.models.find? definition.1.modelId) = some model := by
      cases inserted with
      | true => exact ⟨_, rfl⟩
      | false => exact Option.isSome_iff_exists.mp hk
    obtain ⟨model, hmodel⟩ := hrow
    simp only [step, hmodel] at hs
    obtain ⟨rfl, rfl⟩ := Prod.mk.inj hs
    exact Nat.lt_succ_self 5
  | selectReleases model inserted =>
    obtain ⟨rfl, rfl⟩ := Prod.mk.inj hs
    have hlen := matching_le_one hc definition.1
    simp only [Leaves, left]
    omega
  | lockReleases model inserted remaining found =>
    cases remaining with
    | cons id ids =>
      obtain ⟨rfl, rfl⟩ := Prod.mk.inj hs
      simp only [Leaves, left, List.length_cons]
      omega
    | nil => cases found <;> obtain ⟨rfl, rfl⟩ := Prod.mk.inj hs <;> exact Nat.lt_succ_self 2
  | insertRelease model inserted =>
    simp only [step] at hs
    split at hs <;> obtain ⟨rfl, rfl⟩ := Prod.mk.inj hs
    · exact ⟨rfl, .inl ⟨model, inserted, rfl, ‹_›⟩⟩
    · exact Nat.lt_succ_self 1
  | activeModes model inserted release =>
    have hheld : (Hold.release release).Valid p w := hv _ (by simp [holds])
    obtain ⟨stored, hstored⟩ := hc.reads _ _ hheld.2
    rcases attempt_eq hs with ⟨rfl, err, herr, rfl⟩ | ⟨_, -, hs⟩
    · obtain ⟨mode, hmode, hne, rfl⟩ : ∃ mode ∈ w.tables.activeModes release.id,
          stored.mode? mode ≠ definition.1.executionDefinition.mode? mode ∧ err = protectedMode mode := by
        simp only [ensureEditable, hstored] at herr
        exact ensureActiveModesUnchanged_error herr
      exact ⟨rfl, .inr ⟨model, inserted, release, stored, mode, rfl, hstored, hconf.mem_activeModes.mp hmode, hne,
        rfl⟩⟩
    · obtain ⟨rfl, rfl⟩ := Prod.mk.inj hs
      exact Nat.lt_succ_self 1
  | commit registration =>
    obtain ⟨config, hconfig⟩ := definition.2
    have hsnapshot (id : UUID) : snapshot definition.1 id = .ok ⟨id, definition.1⟩ := by
      simp only [snapshot, RegisterRelease.definition_read hconfig]
      rfl
    simp only [step, hsnapshot, attempt] at hs
    obtain ⟨rfl, rfl⟩ := Prod.mk.inj hs
    obtain ⟨t', ht⟩ := register_isSome hk
    obtain ⟨row, hrow, hfor⟩ := registered_row hk hv ht
    exact ⟨rfl, registration, _, row, rfl, by simp only [World.apply, ht]; rfl, hrow, hfor⟩

end Steps

end Catalog

section Runs
variable {x : External} {c : Config Pid World Proc}

/-- A registration's step changes no table, or is the COMMIT taking effect. -/
theorem Reached.registration_step (h : Reached x c) {p : Pid} {definition : Registrable} {pc : Catalog.Pc}
    (hp : c.procs p = .register definition pc) {a : Action} {c' : Config Pid World Proc}
    (hs : (platform x).step c (.act p a) = some c') :
    c'.shared.tables = c.shared.tables ∨ ∃ r i, pc = .commit r ∧ (a = .run i ∨ a = .lost i) ∧
      Catalog.Registered definition.1 c.shared.tables c'.shared.tables := by
  obtain ⟨-, hall⟩ := (registrations_established x).holds c h
  obtain ⟨hk, hl⟩ := hall p
  rw [hp] at hk hl
  obtain ⟨⟨w', l'⟩, ha, rfl⟩ := Option.map_eq_some_iff.mp hs
  have ha : platformAct x p a c.shared (.register definition pc) = some (w', l') := hp ▸ ha
  have hrun {i : Input} (hw : c.shared.apply p ((Proc.register definition pc).next x p c.shared i).1 = some w') :
      w'.tables = c.shared.tables ∨
        ∃ r, pc = .commit r ∧ Catalog.Registered definition.1 c.shared.tables w'.tables := by
    generalize hnext : (Proc.register definition pc).next x p c.shared i = next at hw
    obtain ⟨e, l'⟩ := next
    by_cases hc : e.commits = false
    · exact .inl (tables_apply hc hw)
    · obtain ⟨change, entries, rfl⟩ := (Effect.commits_iff e).mp (Bool.not_eq_false _ ▸ hc)
      cases Proc.commits hnext rfl with
      | register definition r =>
        obtain ⟨t', ht, rfl⟩ := commit_apply hw
        exact .inr ⟨r, rfl, Catalog.registered hk hl.valid ht⟩
  cases a with
  | start task => cases ha
  | run i =>
    obtain ⟨w₁, hw, h'⟩ := Option.map_eq_some_iff.mp ha
    obtain ⟨rfl, -⟩ := Prod.mk.inj h'
    exact (hrun hw).imp_right fun ⟨r, hr, hregistered⟩ => ⟨r, i, hr, .inl rfl, hregistered⟩
  | lost i =>
    obtain ⟨w₁, hw, h'⟩ := Option.map_eq_some_iff.mp ha
    obtain ⟨rfl, -⟩ := Prod.mk.inj h'
    exact (hrun hw).imp_right fun ⟨r, hr, hregistered⟩ => ⟨r, i, hr, .inr rfl, hregistered⟩
  | fail =>
    obtain ⟨rfl, -⟩ := Prod.mk.inj (Option.some.inj ha)
    exact .inl rfl
  | crash =>
    obtain ⟨rfl, -⟩ := Prod.mk.inj (Option.some.inj ha)
    exact .inl rfl

/-- Registration is atomic, unique and framed. A model has at most one release for an image. No step of a
call changes a table but its COMMIT, by which it returns or, when the answer is lost, raises; the COMMIT writes the
model's name and the one release, whose definition reads back. The call raises, database errors aside, exactly
when the check under the release's lock finds a mode of an accepted unfinished run changed. -/
theorem registration (h : Reached x c) :
    (∀ row ∈ c.shared.tables.releases.rows, ∀ row' ∈ c.shared.tables.releases.rows,
      row.modelId = row'.modelId → row.imageDigest = row'.imageDigest → row = row') ∧
    ∀ p definition pc, c.procs p = .register definition pc →
      (∀ a c', (platform x).step c (.act p a) = some c' → c'.shared.tables = c.shared.tables ∨
        ∃ r i, pc = .commit r ∧ (a = .run i ∨ a = .lost i) ∧
          Catalog.Registered definition.1 c.shared.tables c'.shared.tables) ∧
      (∀ i e r, Catalog.step definition.1 c.shared i pc = (e, r) →
        Catalog.Leaves definition.1 p c.shared i pc e r) ∧
      ∀ model inserted release, pc = .activeModes model inserted release →
        c.shared.pg.locks.owner (.release release.id) = some p ∧
        c.shared.tables.releases.find? release.id = some release ∧ release.IsFor definition.1 ∧
        ∃ stored, ExecutionDefinition.fromDict release.executionDefinition = .ok stored ∧
          ∀ i, (∃ r, Catalog.step definition.1 c.shared i pc = (.read, .running (.commit r))) ↔
            ∀ mode, c.shared.tables.Uses release.id mode →
              stored.mode? mode = definition.1.executionDefinition.mode? mode := by
  obtain ⟨⟨hc, -⟩, hall⟩ := (registrations_established x).holds c h
  refine ⟨fun row hrow row' hrow' hmodel himage => ?_, fun p definition pc hp => ⟨fun a c' hs =>
    h.registration_step hp hs, fun i e r hs => ?_, ?_⟩⟩
  · have hfind := Table.find?_of_mem hrow
    have hfind' := Table.find?_of_mem hrow'
    have hid := hc.unique ⟨row.modelId, "", row.imageDigest, ⟨[]⟩⟩ _ _ row row' hfind hfind' ⟨rfl, rfl⟩
      ⟨hmodel.symm, himage.symm⟩
    rw [hid, hfind'] at hfind
    exact (Option.some.inj hfind).symm
  · obtain ⟨hk, hl⟩ := hall p
    rw [hp] at hk hl
    exact Catalog.leaves hs hk hl.valid hc h.configured
  · rintro model inserted release rfl
    obtain ⟨hk, hl⟩ := hall p
    rw [hp] at hk hl
    have hheld : (Hold.release release).Valid p c.shared := hl.valid _ (by simp [Proc.holds, Catalog.holds])
    obtain ⟨stored, hstored⟩ := hc.reads _ _ hheld.2
    refine ⟨hheld.1, hheld.2, hk.2, stored, hstored, fun i => ?_⟩
    rw [← Catalog.editable_iff h.configured hstored]
    constructor
    · rintro ⟨r, hs⟩
      rcases attempt_eq hs with ⟨he, -⟩ | ⟨_, hok, -⟩
      · contradiction
      · exact hok
    · intro hok
      refine ⟨⟨model, inserted, definition.1.displayName, .edit release definition.1.executionDefinition.toDict⟩, ?_⟩
      simp only [Catalog.step, hok, attempt]

namespace Demo

def registering : List Step := runs 0 (.register registrable) (List.replicate 5 1)

def isRegistering (c : Config Pid World Proc) : Bool :=
  c.shared.tables.models.rows.isEmpty && c.procs 0 matches .register _ (.commit _)

/-- The answer to the COMMIT is lost: an exception ends the program, and the model is stored. -/
def isLost (c : Config Pid World Proc) : Bool :=
  (c.shared.tables.models.find? "demo").isSome && c.procs 0 matches .unwinding

theorem registers : (platform external).passes initial
    [(registering, isRegistering), ([.act 0 (.lost (input 1))], isLost)] = true := by
  decide +kernel

end Demo

theorem registration_demo : ∃ c definition r, Reached Demo.external c ∧
    c.procs 0 = .register definition (.commit r) ∧ c.shared.tables.models.rows = [] ∧
    ∀ i c', (platform Demo.external).step c (.act 0 (.run i)) = some c' →
      c'.shared.tables = c.shared.tables ∨
        Catalog.Registered definition.1 c.shared.tables c'.shared.tables := by
  obtain ⟨c, hc, hcheck, -⟩ := System.passes_cons Demo.registers
  obtain ⟨hempty, hproc⟩ := Bool.and_eq_true_iff.mp hcheck
  split at hproc
  · rename_i definition r hp
    refine ⟨c, definition, r, Demo.reached hc, hp, List.isEmpty_iff.mp hempty, fun i c' hs => ?_⟩
    exact (((registration (Demo.reached hc)).2 0 definition _ hp).1 _ c' hs).imp_right
      fun ⟨_, _, _, _, hregistered⟩ => hregistered
  · exact absurd hproc Bool.false_ne_true

/-- A registration whose COMMIT took effect can still raise: its answer was lost. -/
theorem registration_lost : ∃ c c' definition r, Reached Demo.external c ∧
    c.procs 0 = .register definition (.commit r) ∧
    (platform Demo.external).step c (.act 0 (.lost (Demo.input 1))) = some c' ∧ c'.procs 0 = .unwinding ∧
    c.shared.tables.models.rows = [] ∧ (c'.shared.tables.models.find? "demo").isSome := by
  obtain ⟨c, hc, hcheck, hlost⟩ := System.passes_cons Demo.registers
  obtain ⟨hempty, hproc⟩ := Bool.and_eq_true_iff.mp hcheck
  obtain ⟨c', hc', hcheck', -⟩ := System.passes_cons hlost
  obtain ⟨hstored, hproc'⟩ := Bool.and_eq_true_iff.mp hcheck'
  obtain ⟨c'', hstep, hend⟩ := Option.bind_eq_some_iff.mp hc'
  obtain rfl : c'' = c' := Option.some.inj hend
  split at hproc
  · rename_i definition r hp
    split at hproc'
    · exact ⟨c, c'', definition, r, Demo.reached hc, hp, hstep, ‹_›, List.isEmpty_iff.mp hempty, hstored⟩
    · exact absurd hproc' Bool.false_ne_true
  · exact absurd hproc Bool.false_ne_true

end Runs

end Mic3
