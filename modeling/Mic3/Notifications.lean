import Mic3.RunDetails

/-! The triggers announce every change that shows in the state of a run. -/
namespace Mic3
open Relational

section Payloads

theorem colon_notMem_str (u : UUID) : ':' ∉ u.str.toList := by
  rw [UUID.str, String.toList_ofList]
  exact u.colon_notMem_chars

theorem span_str (u : UUID) (rest : List Char) (hrest : rest = [] ∨ rest.head? = some ':') :
    (u.str.toList ++ rest).span (· ≠ ':') = (u.str.toList, rest) := by
  have hkeep : ∀ c ∈ u.str.toList, decide (c ≠ ':') = true := by
    intro c hc
    exact decide_eq_true fun he => colon_notMem_str u (he ▸ hc)
  rw [List.span_eq_takeWhile_dropWhile]
  refine Prod.ext ?_ ?_
  · rw [List.takeWhile_append_of_pos hkeep]
    rcases hrest with rfl | hhead
    · simp
    · cases rest with
      | nil => contradiction
      | cons c cs =>
        obtain rfl := Option.some.inj hhead
        simp
  · rw [List.dropWhile_append_of_pos hkeep]
    rcases hrest with rfl | hhead
    · rfl
    · cases rest with
      | nil => contradiction
      | cons c cs =>
        obtain rfl := Option.some.inj hhead
        simp

theorem parsePayload_str (u : UUID) : parsePayload u.str = some (u, none) := by
  have hspan := span_str u [] (.inl rfl)
  rw [List.append_nil] at hspan
  simp only [parsePayload, hspan, String.ofList_toList, UUID.parse_str]
  rfl

/-- The payload for a run row is read back as the run and its owner. -/
theorem parsePayload_runPayload (r : Run) : parsePayload (runPayload r) = some (r.id, r.requestedBy) := by
  cases howner : r.requestedBy with
  | none =>
    simp only [runPayload, howner, Option.map_none, Option.getD_none, String.append_empty]
    exact parsePayload_str r.id
  | some owner =>
    have hspan := span_str r.id (':' :: owner.str.toList) (.inr rfl)
    have hlist : (runPayload r).toList = r.id.str.toList ++ ':' :: owner.str.toList := by
      simp only [runPayload, howner, Option.map_some, Option.getD_some, String.toList_append]
      rfl
    have hnonempty : owner.str.toList ≠ [] := by
      intro hempty
      have hchars : owner.chars = [] := by rwa [UUID.str, String.toList_ofList] at hempty
      simp [UUID.chars] at hchars
    simp only [parsePayload, hlist, hspan, if_neg hnonempty, String.ofList_toList, UUID.parse_str]
    rfl

end Payloads

section Writes
variable {t t' : RunTables} {id : UUID} {write : RowWrite} {change : RowChange} {changes : List RowChange}

theorem RunTables.find_congr (hruns : t'.runs.find? id = t.runs.find? id)
    (hartifacts : t'.artifactsOf id = t.artifactsOf id) : t'.find id = t.find id := by
  rw [find, find, hruns, hartifacts]

theorem RunTables.artifactsOf_congr
    (h : (t'.artifacts.rows.filter fun a => a.runId = id) = t.artifacts.rows.filter fun a => a.runId = id) :
    t'.artifactsOf id = t.artifactsOf id := by
  rw [artifactsOf, artifactsOf, h]

/-- What a commit does to the states of runs: they keep their owners, and each that changes is announced, with its
owner or none. -/
structure Announced (t t' : RunTables) (payloads : List String) : Prop where
  kept : ∀ id run, t.runs.find? id = some run →
    ∃ run', t'.runs.find? id = some run' ∧ run'.requestedBy = run.requestedBy
  announced : ∀ id, t'.find id ≠ t.find id → ∃ payload ∈ payloads, ∃ owner, parsePayload payload = some (id, owner)
  honest : ∀ payload ∈ payloads, ∃ id owner, parsePayload payload = some (id, owner) ∧
    ∀ user, owner = some user → ∃ run, t'.runs.find? id = some run ∧ run.requestedBy = some user

/-- The row of one run is written, and announced if it shows. -/
theorem Announced.of_run {runs : Table Run} {row : Run} {payloads : List String}
    (hother : ∀ id, id ≠ row.id → runs.find? id = t.runs.find? id) (hnew : runs.find? row.id = some row)
    (howner : ∀ old, t.runs.find? row.id = some old → row.requestedBy = old.requestedBy)
    (hsame : payloads = [] → ({ t with runs } : RunTables).find row.id = t.find row.id)
    (hpayloads : payloads = [] ∨ payloads = [runPayload row]) : Announced t { t with runs } payloads where
  kept := fun id run hrun => by
    by_cases hid : id = row.id
    · subst hid
      exact ⟨row, hnew, howner run hrun⟩
    · exact ⟨run, (hother id hid).trans hrun, rfl⟩
  announced := fun id hne => by
    have hid : id = row.id := by
      by_contra hid
      exact hne (RunTables.find_congr (hother id hid) rfl)
    subst hid
    rcases hpayloads with hnone | rfl
    · exact absurd (hsame hnone) hne
    · exact ⟨_, List.mem_singleton_self _, row.requestedBy, parsePayload_runPayload row⟩
  honest := fun payload hp => by
    rcases hpayloads with rfl | rfl
    · contradiction
    · obtain rfl := List.mem_singleton.mp hp
      exact ⟨row.id, row.requestedBy, parsePayload_runPayload row, fun user hby => ⟨row, hnew, hby⟩⟩

/-- Artifacts of these runs are written, and the runs announced. -/
theorem Announced.of_artifacts {artifacts : Table RunArtifact} (ids : List UUID)
    (h : ∀ id, id ∉ ids → (artifacts.rows.filter fun a => a.runId = id) =
      t.artifacts.rows.filter fun a => a.runId = id) : Announced t { t with artifacts } (ids.map UUID.str) where
  kept := fun id run hrun => ⟨run, hrun, rfl⟩
  announced := fun id hne => by
    have hid : id ∈ ids := by
      by_contra hid
      exact hne (RunTables.find_congr rfl (RunTables.artifactsOf_congr (h id hid)))
    exact ⟨id.str, List.mem_map_of_mem hid, none, parsePayload_str id⟩
  honest := fun payload hp => by
    obtain ⟨id, -, rfl⟩ := List.mem_map.mp hp
    exact ⟨id, none, parsePayload_str id, fun user howner => by contradiction⟩

theorem filter_insert_artifact {artifacts artifacts' : Table RunArtifact} {row : RunArtifact}
    (h : artifacts.insert row = some artifacts') (hid : id ≠ row.runId) :
    (artifacts'.rows.filter fun a => a.runId = id) = artifacts.rows.filter fun a => a.runId = id := by
  rw [Table.rows_insert h, List.filter_cons, if_neg]
  exact fun he => hid (of_decide_eq_true he).symm

theorem filter_delete_artifact {artifacts : Table RunArtifact} {k : UUID × String} (hid : id ≠ k.1) :
    ((artifacts.delete k).rows.filter fun a => a.runId = id) = artifacts.rows.filter fun a => a.runId = id := by
  simp only [Table.delete, List.filter_filter]
  refine List.filter_congr fun a _ => ?_
  by_cases ha : a.runId = id
  · have hne : key a ≠ k := fun he => hid (ha ▸ congrArg Prod.fst he)
    simp [ha, hne]
  · simp [ha]

theorem RowWrite.apply_announced (h : write.apply t = some (t', change)) :
    Announced t t' (notifyRunChange change) := by
  cases write with
  | insertRun row =>
    obtain ⟨runs, hruns, he⟩ := Option.map_eq_some_iff.mp h
    obtain ⟨rfl, rfl⟩ := Prod.mk.inj he
    refine .of_run (fun id hid => (Table.find?_insert hruns).trans (if_neg hid))
      ((Table.find?_insert hruns).trans (if_pos rfl)) (fun old hold => ?_) (fun hnone => ?_) (.inr rfl)
    · have hfresh : t.runs.find? row.id = none := Table.insert_fresh hruns
      rw [hfresh] at hold
      contradiction
    · exact absurd hnone (List.cons_ne_nil _ _)
  | updateRun row =>
    obtain ⟨old, hold, h⟩ := Option.bind_eq_some_iff.mp h
    obtain ⟨howner, h⟩ := Option.ite_none_right_eq_some.mp h
    obtain ⟨rfl, rfl⟩ := Prod.mk.inj (Option.some.inj h)
    have hnew : (t.runs.replace row).find? row.id = some row := Table.find?_replace_self hold
    refine .of_run (fun id hid => Table.find?_replace_of_ne hid) hnew (fun old' hold' => ?_) (fun hnone => ?_) ?_
    · obtain rfl := Option.some.inj (hold.symm.trans hold')
      exact howner
    · -- Nothing is sent, so every column that shows is as it was.
      have hsame : row.SamePublic old := by
        by_contra hdiffers
        rw [notifyRunChange, if_neg hdiffers] at hnone
        contradiction
      obtain ⟨hrelease, hby, hparameters, hstatus, hcreated, haccepted, hdispatch, hfinished, hfailure⟩ := hsame
      have hkey : row.id = old.id := (Table.key_of_find? hold).symm
      have hdetail : runDetail row (t.artifactsOf row.id) = runDetail old (t.artifactsOf row.id) := by
        simp only [runDetail, hkey, hrelease, hby, hparameters, hstatus, hcreated, haccepted, hdispatch, hfinished,
          hfailure]
      calc ((t.runs.replace row).find? row.id).map (fun run => runDetail run (t.artifactsOf row.id))
          = some (runDetail row (t.artifactsOf row.id)) := by rw [hnew, Option.map_some]
        _ = some (runDetail old (t.artifactsOf row.id)) := by rw [hdetail]
        _ = (t.runs.find? row.id).map (fun run => runDetail run (t.artifactsOf row.id)) := by rw [hold, Option.map_some]
    · rw [notifyRunChange]
      split
      · exact .inl rfl
      · exact .inr rfl
  | insertArtifact row =>
    obtain ⟨artifacts, hartifacts, he⟩ := Option.map_eq_some_iff.mp h
    obtain ⟨rfl, rfl⟩ := Prod.mk.inj he
    exact .of_artifacts [row.runId] fun id hid =>
      filter_insert_artifact hartifacts fun he => hid (List.mem_singleton.mpr he)
  | updateArtifact k row =>
    obtain ⟨old, hold, h⟩ := Option.bind_eq_some_iff.mp h
    obtain ⟨artifacts, hartifacts, h⟩ := Option.bind_eq_some_iff.mp h
    obtain ⟨rfl, rfl⟩ := Prod.mk.inj (Option.some.inj h)
    have hkey : old.runId = k.1 := congrArg Prod.fst (Table.key_of_find? hold)
    have hboth (id : UUID) (hnew : id ≠ row.runId) (hold : id ≠ old.runId) :
        (artifacts.rows.filter fun a => a.runId = id) = t.artifacts.rows.filter fun a => a.runId = id :=
      (filter_insert_artifact hartifacts hnew).trans (filter_delete_artifact fun he => hold (he.trans hkey.symm))
    rw [notifyRunChange]
    split
    · exact .of_artifacts [row.runId, old.runId] fun id hid =>
        hboth id (fun he => hid (he ▸ List.mem_cons_self)) fun he => hid (he ▸ List.mem_cons_of_mem _ List.mem_cons_self)
    · rename_i hmoved
      have hmoved : old.runId = row.runId := not_not.mp hmoved
      exact .of_artifacts [row.runId] fun id hid =>
        hboth id (fun he => hid (he ▸ List.mem_cons_self)) fun he => hid (he.trans hmoved ▸ List.mem_cons_self)
  | deleteArtifact k =>
    obtain ⟨old, hold, h⟩ := Option.bind_eq_some_iff.mp h
    obtain ⟨rfl, rfl⟩ := Prod.mk.inj (Option.some.inj h)
    have hkey : old.runId = k.1 := congrArg Prod.fst (Table.key_of_find? hold)
    exact .of_artifacts [old.runId] fun id hid =>
      filter_delete_artifact fun he => hid (List.mem_singleton.mpr (he.trans hkey.symm))

/-- The triggers announce what a transaction changed. -/
theorem applyWrites_announced {writes : List RowWrite} (h : applyWrites t writes = some (t', changes)) :
    Announced t t' (notifications changes) := by
  induction writes generalizing t changes with
  | nil =>
    obtain ⟨rfl, rfl⟩ := Prod.mk.inj (Option.some.inj h)
    exact ⟨fun id run hrun => ⟨run, hrun, rfl⟩, fun id hne => absurd rfl hne,
      fun payload hp => absurd hp List.not_mem_nil⟩
  | cons write writes ih =>
    obtain ⟨⟨t₁, change⟩, hwrite, h⟩ := Option.bind_eq_some_iff.mp h
    obtain ⟨⟨t₂, rest⟩, hrest, h⟩ := Option.bind_eq_some_iff.mp h
    obtain ⟨rfl, rfl⟩ := Prod.mk.inj (Option.some.inj h)
    have hfirst := write.apply_announced hwrite
    have hlater := ih hrest
    have hmem (payload : String) : payload ∈ notifications (change :: rest) ↔
        payload ∈ notifyRunChange change ∨ payload ∈ notifications rest := by
      simp only [notifications, List.mem_eraseDups, List.flatMap_cons, List.mem_append]
    refine ⟨fun id run hrun => ?_, fun id hne => ?_, fun payload hp => ?_⟩
    · obtain ⟨run', hrun', howner'⟩ := hfirst.kept id run hrun
      obtain ⟨run'', hrun'', howner''⟩ := hlater.kept id run' hrun'
      exact ⟨run'', hrun'', howner''.trans howner'⟩
    · by_cases hsame : t₁.find id = t.find id
      · obtain ⟨payload, hp, howner⟩ := hlater.announced id (hsame ▸ hne)
        exact ⟨payload, (hmem payload).mpr (.inr hp), howner⟩
      · obtain ⟨payload, hp, howner⟩ := hfirst.announced id hsame
        exact ⟨payload, (hmem payload).mpr (.inl hp), howner⟩
    · rcases (hmem payload).mp hp with hp | hp
      · obtain ⟨id, owner, hparse, htrue⟩ := hfirst.honest payload hp
        refine ⟨id, owner, hparse, fun user howner => ?_⟩
        obtain ⟨run, hrun, hby⟩ := htrue user howner
        obtain ⟨run', hrun', hby'⟩ := hlater.kept id run hrun
        exact ⟨run', hrun', hby'.trans hby⟩
      · exact hlater.honest payload hp

/-- A snapshot holds current states of the user's runs. -/
theorem RunTables.mem_snapshot {userId : UUID} {d : RunDetail} (h : d ∈ t.snapshot userId) :
    t.find d.id = some d ∧ d.requestedBy = some userId := by
  obtain ⟨r, hr, rfl⟩ := List.mem_map.mp h
  have hmem : r ∈ t.owned userId := List.mem_of_mem_filter hr
  have hsorted : r ∈ t.runs.rows.filter fun r => r.requestedBy = some userId :=
    (List.mem_insertionSort _).mp (List.mem_reverse.mp hmem)
  obtain ⟨hrow, hby⟩ := List.mem_filter.mp hsorted
  have hfind : t.runs.find? r.id = some r := Table.find?_of_mem hrow
  refine ⟨?_, of_decide_eq_true hby⟩
  calc (t.runs.find? r.id).map (fun run => runDetail run (t.artifactsOf r.id))
      = some (runDetail r (t.artifactsOf r.id)) := by rw [hfind, Option.map_some]

end Writes
end Mic3
