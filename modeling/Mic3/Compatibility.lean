import Mic3.Configuration
import Mic3.RunHistory

/-! Accepted work keeps its configuration. Acceptance and registration both lock the release, so no edit
overlooks a run that is being accepted, and a run that was dispatched ends only under its session lock. -/
namespace Mic3
open Relational Interleaving

/-- Two rows that describe the same computation. -/
structure Run.SameWork (row row' : Run) : Prop where
  modelReleaseId : row'.modelReleaseId = row.modelReleaseId
  parameters : row'.parameters = row.parameters
  fingerprint : row'.fingerprint = row.fingerprint

theorem Run.SameWork.refl (row : Run) : row.SameWork row := ⟨rfl, rfl, rfl⟩

theorem Run.SameWork.trans {a b c : Run} (h : a.SameWork b) (h' : b.SameWork c) : a.SameWork c :=
  ⟨h'.1.trans h.1, h'.2.trans h.2, h'.3.trans h.3⟩

theorem Write.sameWork {row row' : Run} {artifacts : List RunArtifact} {events : List OutboxEvent}
    (h : Write row row' artifacts events) : row.SameWork row' := by
  cases h <;> exact ⟨rfl, rfl, rfl⟩

theorem UnitOfWork.Allowed.sameWork {u : UnitOfWork} (h : u.Allowed) : u.loaded.SameWork u.row := by
  rcases h with ⟨hrow, -⟩ | hw
  · exact hrow ▸ .refl _
  · exact hw.sameWork

theorem Write.accepted {row row' : Run} {artifacts : List RunArtifact} {events : List OutboxEvent}
    (h : Write row row' artifacts events) (ha : row.acceptedAt.isSome) : row'.acceptedAt.isSome := by
  cases h <;> first | exact ha | rfl

theorem UnitOfWork.Allowed.accepted {u : UnitOfWork} (h : u.Allowed) (ha : u.loaded.acceptedAt.isSome) :
    u.row.acceptedAt.isSome := by
  rcases h with ⟨hrow, -⟩ | hw
  · exact hrow ▸ ha
  · exact hw.accepted ha

/-- Every ongoing run has a release that describes its computation, by the invocation it was accepted
with. -/
structure Configured (w : World) : Prop where
  models : ∀ id release, w.tables.releases.find? id = some release →
    (w.tables.models.find? release.modelId).isSome
  ongoing : ∀ id row, w.tables.runs.find? id = some row → row.Ongoing → ∃ release invocation,
    w.tables.releases.find? row.modelReleaseId = some release ∧ release.Runs row invocation ∧
      ∀ other, Entry.accepted id other ∈ w.history ↔ other = invocation
  recorded : ∀ id invocation, Entry.accepted id invocation ∈ w.history →
    ∃ row, w.tables.runs.find? id = some row ∧ row.acceptedAt.isSome

/-- A step lets a run become ongoing only under the lock of its release, and ends a running run only under
the run's session lock. -/
structure Admits (p : Pid) (w w' : World) : Prop where
  ongoing : ∀ id row', w'.tables.runs.find? id = some row' → row'.Ongoing →
    w.pg.locks.owner (.release row'.modelReleaseId) = some p ∨
      ∃ row, w.tables.runs.find? id = some row ∧ row.Ongoing ∧ row.SameWork row'
  running : ∀ id row row', w.tables.runs.find? id = some row → row.status = .running →
    w'.tables.runs.find? id = some row' →
      row'.status = .running ∨ w.pg.sessionLocks (runKey id) = some p
  models : ∀ id, (w.tables.models.find? id).isSome → (w'.tables.models.find? id).isSome

theorem Admits.of_runs {p : Pid} {w w' : World} (h : w'.tables.runs = w.tables.runs)
    (hmodels : ∀ id, (w.tables.models.find? id).isSome → (w'.tables.models.find? id).isSome) :
    Admits p w w' where
  models := hmodels
  ongoing := fun _ row' hr ho => .inr ⟨row', h ▸ hr, ho, .refl _⟩
  running := by
    intro id row row' hr hs hr'
    rw [h, hr] at hr'
    exact .inl (Option.some.inj hr' ▸ hs)

/-- Entries that record no acceptance. -/
def Silent (entries : List Entry) : Prop := ∀ id invocation, Entry.accepted id invocation ∉ entries

theorem Configured.of_eq {w w' : World} (h : Configured w) (hruns : w'.tables.runs = w.tables.runs)
    (hreleases : w'.tables.releases = w.tables.releases) (hmodels : w'.tables.models = w.tables.models)
    (hhistory : ∀ id invocation,
      Entry.accepted id invocation ∈ w'.history ↔ Entry.accepted id invocation ∈ w.history) :
    Configured w' where
  models := by
    rw [hreleases, hmodels]
    exact h.models
  ongoing := by
    intro id row hr ho
    rw [hruns] at hr
    obtain ⟨release, invocation, hf, hrel, hacc⟩ := h.ongoing id row hr ho
    exact ⟨release, invocation, hreleases ▸ hf, hrel, fun other => (hhistory id other).trans (hacc other)⟩
  recorded := by
    intro id invocation hm
    rw [hruns]
    exact h.recorded id invocation ((hhistory id invocation).mp hm)

/-- What a commit owes to the configuration of accepted work. -/
def Effect.Configures (p : Pid) (w : World) : Effect → Prop
  | .commit (.submit row _) entries => row.acceptedAt = none ∧ Silent entries
  | .commit (.outcome u) entries =>
    (u.loaded.status = .running →
      u.row.status = .running ∨ w.pg.sessionLocks (runKey u.loaded.id) = some p) ∧
    (Silent entries ∧ (u.row.Ongoing → u.loaded.Ongoing) ∨
      ∃ release invocation, (Hold.release release).Valid p w ∧ u.loaded.acceptedAt = none ∧
        u.row.acceptedAt.isSome ∧ u.loaded.modelReleaseId = release.id ∧
        release.Runs u.loaded invocation ∧
        ∀ id other, Entry.accepted id other ∈ entries ↔ id = u.loaded.id ∧ other = invocation)
  | .commit (.register r) entries => Silent entries ∧ match r.release with
    | .create row => row.modelId = r.model.id ∧
        (r.inserted = false → (w.tables.models.find? r.model.id).isSome)
    | .edit loaded document => w.tables.releases.find? loaded.id = some loaded ∧
        ∀ id row invocation, w.tables.runs.find? id = some row → row.Ongoing →
          row.modelReleaseId = loaded.id → loaded.Runs row invocation →
            (loaded.edited document).Runs row invocation
  | .commit _ entries => Silent entries
  | _ => True

section Effects
variable {p : Pid} {w w' : World} {e : Effect}

theorem Silent.mem_append {entries : List Entry} (h : Silent entries) {history : List Entry} (id : UUID)
    (invocation : Invocation) :
    Entry.accepted id invocation ∈ entries ++ history ↔ Entry.accepted id invocation ∈ history := by
  rw [List.mem_append, or_iff_right (h id invocation)]

/-- An effect that is no commit records no acceptance. -/
theorem accepted_apply (hc : e.commits = false) (ha : w.apply p e = some w') (id : UUID)
    (invocation : Invocation) :
    Entry.accepted id invocation ∈ w'.history ↔ Entry.accepted id invocation ∈ w.history := by
  rcases history_apply hc ha with h | ⟨event, h⟩ <;> simp [h]

theorem outcome_configured {u : UnitOfWork} {entries : List Entry}
    (hal : (Change.outcome u).Allowed w.tables)
    (hconf : (Effect.commit (.outcome u) entries).Configures p w)
    (ha : w.apply p (.commit (.outcome u) entries) = some w') (h : Configured w) :
    Configured w' ∧ Admits p w w' := by
  obtain ⟨tables, ht, rfl⟩ := commit_apply ha
  have hfind := find?_outcome hal ht
  obtain ⟨hu, hcurrent⟩ := hal
  obtain ⟨hrun, hwrite⟩ := hconf
  obtain ⟨artifacts, outbox, -, -, rfl⟩ := Change.outcome_apply ht
  have hcases {id : UUID} {row' : Run}
      (hr : (w.tables.runs.modify u.loaded.id (Run.flush u.loaded u.row)).find? id = some row') :
      (id = u.loaded.id ∧ row' = u.row) ∨ id ≠ u.loaded.id ∧ w.tables.runs.find? id = some row' := by
    rw [show _ = _ from hfind id] at hr
    split at hr
    · exact .inl ⟨‹_›, (Option.some.inj hr).symm⟩
    · exact .inr ⟨‹_›, hr⟩
  have hwork := hu.sameWork
  refine ⟨⟨h.models, fun id row' hr ho => ?_, fun id invocation hm => ?_⟩, ⟨fun id row' hr ho => ?_, ?_, fun _ hm => hm⟩⟩
  · rcases hcases hr with ⟨rfl, rfl⟩ | ⟨hne, hr⟩
    · rcases hwrite with ⟨hsilent, hkeep⟩ | ⟨release, invocation, hheld, hnone, -, hid, hruns, hentries⟩
      · obtain ⟨release, invocation, hf, hruns, hacc⟩ := h.ongoing _ _ hcurrent (hkeep ho)
        exact ⟨release, invocation, hwork.modelReleaseId.symm ▸ hf,
          hruns.congr hwork.parameters hwork.fingerprint,
          fun other => (hsilent.mem_append _ other).trans (hacc other)⟩
      · refine ⟨release, invocation, ?_, hruns.congr hwork.parameters hwork.fingerprint, fun other => ?_⟩
        · rw [hwork.modelReleaseId, hid]
          exact hheld.2
        · rw [List.mem_append, hentries]
          constructor
          · rintro (⟨-, ho⟩ | hm)
            · exact ho
            · obtain ⟨row, hrow, hsome⟩ := h.recorded _ _ hm
              obtain rfl := Option.some.inj (hcurrent.symm.trans hrow)
              simp [hnone] at hsome
          · exact fun ho => .inl ⟨rfl, ho⟩
    · obtain ⟨release, invocation, hf, hruns, hacc⟩ := h.ongoing id row' hr ho
      refine ⟨release, invocation, hf, hruns, fun other => Iff.trans ?_ (hacc other)⟩
      rcases hwrite with ⟨hsilent, -⟩ | ⟨_, _, -, -, -, -, -, hentries⟩
      · exact hsilent.mem_append id other
      · rw [List.mem_append, hentries, or_iff_right fun he => hne he.1]
  · simp only [hfind]
    have hrow : Entry.accepted id invocation ∈ w.history →
        ∃ row, (if id = u.loaded.id then some u.row else w.tables.runs.find? id) = some row ∧
          row.acceptedAt.isSome := by
      intro hm
      obtain ⟨row, hrow, hsome⟩ := h.recorded id invocation hm
      split
      · rename_i hid
        obtain rfl := Option.some.inj (hcurrent.symm.trans (hid ▸ hrow))
        exact ⟨u.row, rfl, hu.accepted hsome⟩
      · exact ⟨row, hrow, hsome⟩
    rcases hwrite with ⟨hsilent, -⟩ | ⟨_, _, -, -, hsome, -, -, hentries⟩
    · exact hrow ((hsilent.mem_append id invocation).mp hm)
    · rcases List.mem_append.mp hm with hm | hm
      · exact ⟨u.row, if_pos ((hentries _ _).mp hm).1, hsome⟩
      · exact hrow hm
  · rcases hcases hr with ⟨rfl, rfl⟩ | ⟨-, hr⟩
    · rcases hwrite with ⟨-, hkeep⟩ | ⟨release, _, hheld, -, -, hid, -, -⟩
      · exact .inr ⟨u.loaded, hcurrent, hkeep ho, hwork⟩
      · left
        rw [hwork.modelReleaseId, hid]
        exact hheld.1
    · exact .inr ⟨row', hr, ho, .refl _⟩
  · intro id row row' hr hs hr'
    rcases hcases hr' with ⟨rfl, rfl⟩ | ⟨-, hr'⟩
    · obtain rfl := Option.some.inj (hcurrent.symm.trans hr)
      exact hrun hs
    · obtain rfl := Option.some.inj (hr.symm.trans hr')
      exact .inl hs

theorem register_configured {r : Registration} {entries : List Entry}
    (hconf : (Effect.commit (.register r) entries).Configures p w)
    (ha : w.apply p (.commit (.register r) entries) = some w') (h : Configured w) :
    Configured w' ∧ Admits p w w' := by
  obtain ⟨tables, ht, rfl⟩ := commit_apply ha
  obtain ⟨models, releases, hmodels, hreleases, rfl⟩ := Change.register_apply ht
  obtain ⟨hsilent, hwrite⟩ := hconf
  have hold (id : String) (hid : (w.tables.models.find? id).isSome) : (models.find? id).isSome := by
    unfold Change.writeModel at hmodels
    split at hmodels
    · obtain ⟨model, hmodel⟩ := Option.isSome_iff_exists.mp hid
      simp [Table.find?_insert_of_some hmodels hmodel]
    · obtain rfl := Option.some.inj hmodels
      rw [Table.find?_modify (f := ModelRow.renamed r.displayName) fun _ => rfl]
      split
      · rename_i hid'
        simpa [← hid'] using hid
      · exact hid
  have hnew (hid : r.inserted = false → (w.tables.models.find? r.model.id).isSome) :
      (models.find? r.model.id).isSome := by
    cases hi : r.inserted with
    | false => exact hold _ (hid hi)
    | true =>
      rw [Change.writeModel, hi, if_pos rfl] at hmodels
      have hfind := Table.find?_insert (k := r.model.id) hmodels
      simp [hfind, ModelRow.renamed, key]
  refine ⟨?_, .of_runs rfl hold⟩
  cases hr : r.release with
  | create row =>
    rw [hr] at hreleases hwrite
    obtain ⟨hmodel, hid⟩ := hwrite
    refine ⟨fun id release hf => ?_, fun id run hrun ho => ?_, fun id invocation hm => ?_⟩
    · rw [show releases.find? id = _ from Table.find?_insert hreleases] at hf
      split at hf
      · obtain rfl := Option.some.inj hf
        rw [hmodel]
        exact hnew hid
      · exact hold _ (h.models id release hf)
    · obtain ⟨release, invocation, hf, hruns, hacc⟩ := h.ongoing id run hrun ho
      exact ⟨release, invocation, Table.find?_insert_of_some hreleases hf, hruns,
        fun other => (hsilent.mem_append id other).trans (hacc other)⟩
    · exact h.recorded id invocation ((hsilent.mem_append id invocation).mp hm)
  | edit loaded document =>
    rw [hr] at hreleases hwrite
    obtain ⟨hcurrent, hkeep⟩ := hwrite
    obtain rfl := Option.some.inj hreleases
    have hfind (id : UUID) : (w.tables.releases.modify loaded.id (.edited document)).find? id =
        if id = loaded.id then some (loaded.edited document) else w.tables.releases.find? id := by
      rw [Table.find?_modify (f := ModelReleaseRow.edited document) fun _ => rfl, hcurrent]
      rfl
    refine ⟨fun id release hf => ?_, fun id run hrun ho => ?_, fun id invocation hm => ?_⟩
    · rw [hfind] at hf
      split at hf
      · obtain rfl := Option.some.inj hf
        exact hold loaded.modelId (h.models _ _ hcurrent)
      · exact hold _ (h.models id release hf)
    · obtain ⟨release, invocation, hf, hruns, hacc⟩ := h.ongoing id run hrun ho
      have hacc' (other : Invocation) : Entry.accepted id other ∈ entries ++ w.history ↔ other = invocation :=
        (hsilent.mem_append id other).trans (hacc other)
      simp only [hfind]
      by_cases hid : run.modelReleaseId = loaded.id
      · obtain rfl := Option.some.inj (hcurrent.symm.trans (hid ▸ hf))
        exact ⟨_, invocation, if_pos hid, hkeep id run invocation hrun ho hid hruns, hacc'⟩
      · exact ⟨release, invocation, (if_neg hid).trans hf, hruns, hacc'⟩
    · exact h.recorded id invocation ((hsilent.mem_append id invocation).mp hm)

/-- An effect that owes nothing more keeps accepted work configured. -/
theorem Effect.Configures.apply (hconf : e.Configures p w) (hal : e.Allowed w.tables)
    (ha : w.apply p e = some w') (h : Configured w) : Configured w' ∧ Admits p w w' := by
  cases hcommit : e.commits with
  | false =>
    have ht := tables_apply hcommit ha
    exact ⟨h.of_eq (by rw [ht]) (by rw [ht]) (by rw [ht]) (accepted_apply hcommit ha),
      .of_runs (by rw [ht]) fun id hm => by rwa [ht]⟩
  | true =>
    obtain ⟨change, entries, rfl⟩ := e.commits_iff.mp hcommit
    cases change with
    | outcome u => exact outcome_configured hal hconf ha h
    | register r => exact register_configured hconf ha h
    | nothing =>
      obtain ⟨tables, ht, rfl⟩ := commit_apply ha
      obtain rfl := Change.nothing_apply ht
      exact ⟨h.of_eq rfl rfl rfl hconf.mem_append, .of_runs rfl fun _ hm => hm⟩
    | publish marks =>
      obtain ⟨tables, ht, rfl⟩ := commit_apply ha
      obtain rfl := Change.publish_apply ht
      exact ⟨h.of_eq rfl rfl rfl hconf.mem_append, .of_runs rfl fun _ hm => hm⟩
    | reject message =>
      obtain ⟨tables, ht, rfl⟩ := commit_apply ha
      obtain ⟨rejected, -, rfl⟩ := Change.reject_apply ht
      exact ⟨h.of_eq rfl rfl rfl hconf.mem_append, .of_runs rfl fun _ hm => hm⟩
    | submit row event =>
      obtain ⟨tables, ht, rfl⟩ := commit_apply ha
      obtain ⟨runs, outbox, hruns, -, rfl⟩ := Change.submit_apply ht
      obtain ⟨hnone, hsilent⟩ := hconf
      have hcases {id : UUID} {row' : Run} (hr : runs.find? id = some row') (ho : row'.Ongoing) :
          w.tables.runs.find? id = some row' := by
        rw [Table.find?_insert hruns] at hr
        split at hr
        · obtain rfl := Option.some.inj hr
          have hsome := ho.accepted
          simp [hnone] at hsome
        · exact hr
      refine ⟨⟨h.models, fun id row' hr ho => ?_, fun id invocation hm => ?_⟩,
        ⟨fun id row' hr ho => ?_, fun id row₀ row' hr hs hr' => ?_, fun _ hm => hm⟩⟩
      · obtain ⟨release, invocation, hf, hrel, hacc⟩ := h.ongoing id row' (hcases hr ho) ho
        exact ⟨release, invocation, hf, hrel, fun other => (hsilent.mem_append id other).trans (hacc other)⟩
      · obtain ⟨row, hrow, hsome⟩ := h.recorded id invocation ((hsilent.mem_append id invocation).mp hm)
        exact ⟨row, Table.find?_insert_of_some hruns hrow, hsome⟩
      · exact .inr ⟨row', hcases hr ho, ho, .refl _⟩
      · have hfind : runs.find? id = some row₀ := Table.find?_insert_of_some hruns hr
        obtain rfl : row₀ = row' := Option.some.inj (hfind.symm.trans hr')
        exact .inl hs

end Effects
end Mic3
