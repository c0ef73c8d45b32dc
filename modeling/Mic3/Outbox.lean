import Mic3.Origins

/-! The outbox: a row is marked only in the commit of the batch that holds it, and only after the broker
acknowledged it. -/
namespace Mic3
open Relational Interleaving

/-- The events of an open batch, in order. -/
def PublishOutbox.batch : Pc → List OutboxEvent
  | .select => []
  | .lockRows _ claimed => claimed
  | .publish marked todo => marked.map Prod.fst ++ todo
  | .confirm marked event todo => marked.map Prod.fst ++ event :: todo

/-- The events that were acknowledged, and are marked in memory. -/
def PublishOutbox.marked : Pc → List (OutboxEvent × Time)
  | .publish marked _ | .confirm marked _ _ => marked
  | _ => []

/-- The rows that are still to be looked at. -/
def PublishOutbox.remaining : Pc → List UUID
  | .lockRows remaining _ => remaining
  | _ => []

def Proc.batch : Proc → List OutboxEvent
  | .publish _ pc => PublishOutbox.batch pc
  | _ => []

/-- What a publication knows of its batch. -/
structure PublishOutbox.Knows (w : World) (pc : Pc) : Prop where
  nodup : ((batch pc).map OutboxEvent.id ++ remaining pc).Nodup
  unpublished : ∀ event ∈ batch pc, event.publishedAt = none
  acknowledged : ∀ mark ∈ marked pc, Entry.acknowledged mark.1.id ∈ w.history

/-- What a process knows of the outbox rows that it is about to write. -/
def Proc.Publishes (w : World) : Proc → Prop
  | .publish _ pc => PublishOutbox.Knows w pc
  | .submit _ (.commit _ _ event) => event.publishedAt = none
  | _ => True

/-- Whatever is published was acknowledged. -/
def World.Acknowledged (w : World) : Prop :=
  ∀ id row, w.tables.outbox.find? id = some row → row.publishedAt ≠ none → Entry.acknowledged id ∈ w.history

/-- Rows stay, and a published row stays as it is. -/
def Tables.KeepsEvents (t t' : Tables) : Prop :=
  ∀ id row, t.outbox.find? id = some row → ∃ row', t'.outbox.find? id = some row' ∧
    row'.inserted = row.inserted ∧ (row.publishedAt ≠ none → row' = row)

/-- Publication only marks what was acknowledged, and keeps every row. -/
def publication : Contract Pid World Proc where
  inv := World.Acknowledged
  assert := fun _ l w => l.Publishes w
  guarantee := fun _ w w' => w.tables.KeepsEvents w'.tables ∧ w.history ⊆ w'.history

section Tables
variable {t t' : Tables} {outbox : Table OutboxEvent} {marks : List (UUID × Time)} {id : UUID} {row : OutboxEvent}

theorem Tables.KeepsEvents.of_some (h : ∀ id row, t.outbox.find? id = some row → t'.outbox.find? id = some row) :
    t.KeepsEvents t' := fun id row hrow => ⟨row, h id row hrow, rfl, fun _ => rfl⟩

theorem Tables.unpublished_nodup (t : Tables) : t.unpublished.Nodup := by
  have hperm := (orderedBy_perm OutboxEvent.createdAt OutboxEvent.id
    (t.outbox.rows.filter fun e => e.publishedAt = none)).map OutboxEvent.id
  refine hperm.nodup_iff.mpr ?_
  exact t.outbox.nodup.sublist (List.filter_sublist.map OutboxEvent.id)

/-- The row of one mark. -/
theorem find?_markPublished {time : Time} (hn : (marks.map Prod.fst).Nodup) (hm : (id, time) ∈ marks)
    (hrow : outbox.find? id = some row) :
    (marks.foldl Change.markPublished outbox).find? id = some (row.published time) := by
  induction marks generalizing outbox with
  | nil => contradiction
  | cons mark marks ih =>
    obtain ⟨hfresh, hn⟩ := List.nodup_cons.mp hn
    rw [List.foldl_cons]
    rcases List.mem_cons.mp hm with rfl | hm
    · -- No later mark has this id.
      have hlater : ∀ mark ∈ marks, mark.1 ≠ id := fun mark hmem heq =>
        hfresh (List.mem_map.mpr ⟨mark, hmem, heq⟩)
      rw [find?_markPublished_of_notMem hlater, Change.markPublished,
        Table.find?_modify (f := OutboxEvent.published time) fun _ => rfl, if_pos rfl, hrow]
      rfl
    · have hne : id ≠ mark.1 := fun heq => hfresh (heq ▸ List.mem_map_of_mem hm)
      refine ih hn hm ?_
      rw [Change.markPublished, Table.find?_modify (f := OutboxEvent.published mark.2) fun _ => rfl, if_neg hne]
      exact hrow

end Tables
section Programs
variable {x : External} {p q : Pid} {w w' : World} {i : Input} {e : Effect} {l l' : Proc}

theorem PublishOutbox.holds_eq (pc : Pc) : holds pc = (batch pc).map .event := by cases pc <;> rfl

/-- A publication returns at its commit. -/
theorem PublishOutbox.returned {isoformat : Datetime → String} {publisher : Publisher} {pc : PublishOutbox.Pc} {n : ℕ}
    (hs : step isoformat publisher p w i pc = (e, .returned n)) : ∃ marked, pc = .publish marked [] ∧
      n = marked.length ∧ e = .commit (.publish (marks marked)) [.published (marked.map (·.1.id))] := by
  rcases step_cases hs with ⟨-, err, hr⟩ | hc
  · contradiction
  cases pc with
  | select => cases hc.2
  | lockRows remaining claimed =>
    rcases hc with ⟨-, hr⟩ | ⟨id, ids, -, ⟨-, hr⟩ | ⟨-, hr⟩⟩ <;> contradiction
  | publish marked todo =>
    rcases hc with ⟨event, rest, -, -, -, hr⟩ | ⟨rfl, he, hr⟩
    · contradiction
    · exact ⟨marked, rfl, Progress.returned.inj hr, he⟩
  | confirm marked event todo => cases hc.2

/-- The events of an open batch are locked, and are as they were read. -/
theorem Proc.batch_valid (hl : Holding p l w) {event : OutboxEvent} (he : event ∈ l.batch) :
    (Hold.event event).Valid p w := by
  cases l with
  | publish publisher pc =>
    apply hl.valid
    rw [Proc.holds, PublishOutbox.holds_eq]
    exact List.mem_map_of_mem he
  | _ => contradiction

theorem PublishOutbox.knows_step {isoformat : Datetime → String} {publisher : Publisher} {pc : PublishOutbox.Pc}
    {r : Progress PublishOutbox.Pc ℕ} (hs : step isoformat publisher p w i pc = (e, r)) (hk : Knows w pc)
    (ha : w.apply p e = some w') : r.All (Knows w') := by
  have hhistory := history_subset ha
  rcases step_cases hs with ⟨-, err, rfl⟩ | hc
  · trivial
  cases pc with
  | select =>
    obtain ⟨-, rfl⟩ := hc
    exact ⟨w.tables.unpublished_nodup, List.forall_mem_nil _, List.forall_mem_nil _⟩
  | lockRows remaining claimed =>
    have hstop : Knows w' (.publish [] claimed) := by
      refine ⟨?_, hk.unpublished, List.forall_mem_nil _⟩
      have hclaimed := (List.nodup_append.mp hk.nodup).1
      simpa [batch, PublishOutbox.remaining] using hclaimed
    obtain ⟨-, rfl⟩ | ⟨id, ids, rfl, ⟨-, rfl⟩ | ⟨-, rfl⟩⟩ := hc
    · exact hstop
    · have hsub : (claimed.map OutboxEvent.id ++ ids).Sublist (claimed.map OutboxEvent.id ++ id :: ids) :=
        (List.Sublist.refl _).append (List.sublist_cons_self id ids)
      exact ⟨hk.nodup.sublist hsub, hk.unpublished, List.forall_mem_nil _⟩
    · cases hrow : (w.tables.outbox.find? id).filter fun event => event.publishedAt = none with
      | none =>
        have hsub : (claimed.map OutboxEvent.id ++ ids).Sublist (claimed.map OutboxEvent.id ++ id :: ids) :=
          (List.Sublist.refl _).append (List.sublist_cons_self id ids)
        refine ⟨?_, ?_, List.forall_mem_nil _⟩
        · simpa [batch, PublishOutbox.remaining] using hk.nodup.sublist hsub
        · simpa [batch] using hk.unpublished
      | some event =>
        obtain ⟨hfind, hnone⟩ := Option.filter_eq_some_iff.mp hrow
        obtain rfl : event.id = id := Table.key_of_find? hfind
        refine ⟨?_, ?_, List.forall_mem_nil _⟩
        · simpa [batch, PublishOutbox.remaining] using hk.nodup
        · refine List.forall_mem_append.mpr ⟨hk.unpublished, List.forall_mem_singleton.mpr ?_⟩
          exact of_decide_eq_true hnone
  | publish marked todo =>
    rcases hc with ⟨event, rest, rfl, -, -, rfl⟩ | ⟨-, -, rfl⟩
    · exact ⟨hk.nodup, hk.unpublished, fun mark hm => hhistory (hk.acknowledged mark hm)⟩
    · trivial
  | confirm marked event todo =>
    obtain ⟨rfl, rfl⟩ := hc
    have hbatch : batch (.publish (marked ++ [(event, i.now)]) todo) = batch (.confirm marked event todo) := by
      simp [batch]
    refine ⟨hbatch ▸ hk.nodup, hbatch ▸ hk.unpublished, ?_⟩
    refine List.forall_mem_append.mpr ⟨fun mark hm => hhistory (hk.acknowledged mark hm), ?_⟩
    obtain ⟨-, h⟩ := Option.ite_none_right_eq_some.mp ha
    obtain rfl := Option.some.inj h
    exact List.forall_mem_singleton.mpr List.mem_cons_self

theorem Proc.publishes_step (hs : l.next x p w i = (e, l')) (hk : l.Publishes w) (ha : w.apply p e = some w') :
    l'.Publishes w' := by
  cases l with
  | publish publisher pc =>
    obtain ⟨rfl, rfl⟩ := Prod.mk.inj hs
    exact (PublishOutbox.knows_step rfl hk ha).proc (Q := fun l => l.Publishes w') (fun _ h => h) trivial
  | submit call pc =>
    obtain ⟨rfl, rfl⟩ := Prod.mk.inj hs
    have hnext : (call.step w i pc).2.All fun pc => (Proc.submit call pc).Publishes w' := by
      rcases SubmitRun.step_cases (Prod.mk.eta (p := call.step w i pc)).symm with ⟨-, err, hr⟩ | hc
      · rw [hr]
        trivial
      cases pc with
      | getRelease =>
        obtain ⟨s, -, -, ⟨limits, -, hr⟩ | ⟨-, hr⟩⟩ := hc <;> rw [hr] <;> trivial
      | lockAdmission | countTotal | findUser =>
        obtain ⟨-, hr⟩ := hc
        rw [hr]
        trivial
      | countOwned | insertRun | checkRelease =>
        obtain ⟨-, -, hr⟩ := hc
        rw [hr]
        trivial
      | checkUser =>
        obtain ⟨-, hr⟩ := hc
        rw [hr]
        trivial
      | insertEvent =>
        obtain ⟨-, hr⟩ := hc
        rw [hr]
        rfl
      | commit =>
        obtain ⟨-, hr⟩ := hc
        rw [hr]
        trivial
    exact hnext.proc (Q := fun l => l.Publishes w') (fun _ h => h) trivial
  | idle | unwinding =>
    obtain ⟨-, rfl⟩ := Prod.mk.inj hs
    trivial
  | register | accept | claim | reconcile | consume =>
    obtain ⟨-, rfl⟩ := Prod.mk.inj hs
    exact (Progress.all_true _).proc (Q := fun l => l.Publishes w') (fun _ _ => trivial) trivial

theorem Proc.Commits.of_publish {marks : List (UUID × Time)} {entries : List Entry}
    (h : l.Commits (.publish marks) entries) : ∃ publisher marked, l = .publish publisher (.publish marked []) ∧
      marks = PublishOutbox.marks marked := by
  generalize hchange : Change.publish marks = change at h
  cases h with
  | publish publisher marked => exact ⟨publisher, marked, rfl, Change.publish.inj hchange⟩
  | claim worker u started => cases u <;> contradiction
  | reject topic location rejection message => cases message <;> contradiction
  | _ => contradiction

/-- What the commit of a batch writes. -/
theorem PublishOutbox.commit_apply {marked : List (OutboxEvent × Time)} {t' : Tables}
    (hk : Knows w (.publish marked []))
    (hv : ∀ event ∈ batch (.publish marked []), w.tables.outbox.find? event.id = some event)
    (ht : (Change.publish (marks marked)).apply w.tables = some t') :
    (∀ mark ∈ marked, t'.outbox.find? mark.1.id = some (mark.1.published mark.2)) ∧
      ∀ id, id ∉ marked.map (·.1.id) → t'.outbox.find? id = w.tables.outbox.find? id := by
  obtain rfl := Change.publish_apply ht
  have hids : (marks marked).map Prod.fst = marked.map (·.1.id) := by
    rw [marks, List.map_map]
    rfl
  have hnodup : ((marks marked).map Prod.fst).Nodup := by
    have h := hk.nodup
    simp only [batch, PublishOutbox.remaining, List.append_nil, List.map_map] at h
    exact hids ▸ h
  refine ⟨fun mark hm => ?_, fun id hid => find?_markPublished_of_notMem fun mark hm heq => hid ?_⟩
  · have hevent : mark.1 ∈ batch (.publish marked []) :=
      List.mem_append_left _ (List.mem_map_of_mem hm)
    exact find?_markPublished hnodup (List.mem_map.mpr ⟨mark, hm, rfl⟩) (hv mark.1 hevent)
  · exact hids ▸ heq ▸ List.mem_map_of_mem hm

theorem Write.unpublished {row row' : Run} {artifacts : List RunArtifact} {events : List OutboxEvent}
    (h : Write row row' artifacts events) : ∀ event ∈ events, event.publishedAt = none := by
  cases h with
  | accept | start | saveUid => exact List.forall_mem_nil _
  | refuse | succeed | fail => exact List.forall_mem_singleton.mpr rfl

theorem UnitOfWork.Allowed.unpublished {u : UnitOfWork} (h : u.Allowed) :
    ∀ event ∈ u.events, event.publishedAt = none := by
  obtain ⟨-, -, hevents⟩ | hw := h
  · exact hevents ▸ List.forall_mem_nil _
  · exact hw.unpublished

/-- What an effect leaves of an outbox row, and which rows it adds. -/
theorem Proc.outbox_step (hs : l.next x p w i = (e, l')) (hal : e.Allowed w.tables) (hl : Holding p l w)
    (hk : l.Publishes w) (ha : w.apply p e = some w') :
    w.tables.KeepsEvents w'.tables ∧ ∀ id row, w'.tables.outbox.find? id = some row → row.publishedAt ≠ none →
      w.tables.outbox.find? id = some row ∨ Entry.acknowledged id ∈ w.history := by
  cases hcommit : e.commits with
  | false =>
    rw [tables_apply hcommit ha]
    exact ⟨.of_some fun _ _ h => h, fun _ _ h _ => .inl h⟩
  | true =>
    obtain ⟨change, entries, rfl⟩ := e.commits_iff.mp hcommit
    have hcommits := Proc.commits hs rfl
    obtain ⟨tables, ht, rfl⟩ := Mic3.commit_apply ha
    cases change with
    | nothing =>
      obtain rfl := Change.nothing_apply ht
      exact ⟨.of_some fun _ _ h => h, fun _ _ h _ => .inl h⟩
    | register r =>
      obtain ⟨models, releases, -, -, rfl⟩ := Change.register_apply ht
      exact ⟨.of_some fun _ _ h => h, fun _ _ h _ => .inl h⟩
    | reject message =>
      obtain ⟨rejected, -, rfl⟩ := Change.reject_apply ht
      exact ⟨.of_some fun _ _ h => h, fun _ _ h _ => .inl h⟩
    | submit row event =>
      obtain ⟨call, s, rfl, -⟩ := hcommits.of_submit
      obtain ⟨runs, outbox, -, houtbox, rfl⟩ := Change.submit_apply ht
      refine ⟨.of_some fun _ _ h => Table.find?_insert_of_some houtbox h, fun id row' hrow' hpublished => ?_⟩
      rw [show (outbox.find? id) = _ from Table.find?_insert houtbox] at hrow'
      split at hrow'
      · obtain rfl := Option.some.inj hrow'
        exact absurd hk hpublished
      · exact .inl hrow'
    | outcome u =>
      obtain ⟨artifacts, outbox, -, houtbox, rfl⟩ := Change.outcome_apply ht
      refine ⟨.of_some fun id row h => ?_, fun id row' hrow' hpublished => ?_⟩
      · simp only [Table.find?_insertAll houtbox, h, Option.some_or]
      · rw [show (outbox.find? id) = _ from Table.find?_insertAll houtbox, Option.or_eq_some_iff] at hrow'
        rcases hrow' with h | ⟨-, h⟩
        · exact .inl h
        · exact absurd (hal.1.unpublished row' (List.mem_of_find?_eq_some h)) hpublished
    | publish marks =>
      obtain ⟨publisher, marked, rfl, rfl⟩ := hcommits.of_publish
      have hvalid : ∀ event ∈ PublishOutbox.batch (.publish marked []),
          w.tables.outbox.find? event.id = some event :=
        fun event he => (Proc.batch_valid hl (l := .publish publisher (.publish marked [])) he).2
      obtain ⟨hmarked, hother⟩ := PublishOutbox.commit_apply hk hvalid ht
      refine ⟨fun id row hrow => ?_, fun id row' hrow' hpublished => ?_⟩
      · by_cases hid : id ∈ marked.map (·.1.id)
        · obtain ⟨mark, hm, rfl⟩ := List.mem_map.mp hid
          have hevent : mark.1 ∈ PublishOutbox.batch (.publish marked []) :=
            List.mem_append_left _ (List.mem_map_of_mem hm)
          obtain rfl : mark.1 = row := Option.some.inj ((hvalid _ hevent).symm.trans hrow)
          exact ⟨_, hmarked mark hm, rfl, fun hne => absurd (hk.unpublished _ hevent) hne⟩
        · exact ⟨row, (hother id hid).trans hrow, rfl, fun _ => rfl⟩
      · by_cases hid : id ∈ marked.map (·.1.id)
        · obtain ⟨mark, hm, rfl⟩ := List.mem_map.mp hid
          exact .inr (hk.acknowledged mark hm)
        · exact .inl ((hother id hid).symm.trans hrow')

end Programs

theorem Proc.Publishes.mono {w w' : World} {l : Proc} (h : l.Publishes w) (hsub : w.history ⊆ w'.history) :
    l.Publishes w' := by
  cases l with
  | publish publisher pc => exact ⟨h.nodup, h.unpublished, fun mark hm => hsub (h.acknowledged mark hm)⟩
  | submit call pc => cases pc <;> exact h
  | _ => exact h

theorem publication_layer (x : External) : Layer publication (runHistory.both holding) x where
  start := by
    intro p task w
    cases task with
    | publish publisher => exact ⟨List.nodup_nil, List.forall_mem_nil _, List.forall_mem_nil _⟩
    | _ => trivial
  failing := by
    intro p l w
    cases l with
    | reconcile worker runId pc => cases pc <;> trivial
    | _ => trivial
  refl := fun _ w => ⟨.of_some fun _ _ h => h, List.Subset.refl _⟩
  step := by
    intro p w i l e l' w' hs ha hinv hb _ hc hk
    obtain ⟨hal, -⟩ := Proc.knows_step hs hb.1 hb.2 ha
    obtain ⟨hkeeps, hnew⟩ := Proc.outbox_step hs hal hb.2 hk ha
    have hhistory := history_subset ha
    refine ⟨fun id row hrow hpublished => hhistory ?_, Proc.publishes_step hs hk ha, hkeeps, hhistory⟩
    rcases hnew id row hrow hpublished with hold | hacknowledged
    · exact hc id row hold hpublished
    · exact hacknowledged

theorem publication_proof (x : External) :
    publication.Proof (runHistory.both holding) (platform x) fun _ _ => True where
  act := by
    intro p a w l w' l' _ ha hinv hb hg hc hk
    exact (publication_layer x).act (fun _ _ _ => ⟨trivial, .of_nothing rfl rfl⟩) ha hinv hb hg hc hk
  stable := by
    intro p q l w w' _ _ _ _ hg _ hk
    exact hk.mono hg.2
  env := by
    intro ev w w' _ he _ hc
    obtain ⟨-, -, houtbox⟩ := World.event_tables he
    have hhistory := World.event_history he
    refine ⟨fun id row hrow hpublished => ?_, fun q l _ hk => hk.mono (hhistory ▸ List.Subset.refl _)⟩
    rw [hhistory]
    exact hc id row (houtbox ▸ hrow) hpublished

theorem publication_established (x : External) :
    (publication.both (runHistory.both holding)).Established (platform x) (fun _ _ => True) initial :=
  (publication_proof x).established (runHistory_established x) ⟨fun _ _ h => (by cases h), fun _ => trivial⟩

section Runs
variable {x : External} {c c' : Config Pid World Proc}

theorem Reached.keepsEvents (h : Reached x c) {l : Label Pid Action External.Event}
    (hs : (platform x).step c l = some c') : c.shared.tables.KeepsEvents c'.shared.tables := by
  cases l with
  | act p a =>
    obtain ⟨⟨w, l⟩, ha, rfl⟩ := Option.map_eq_some_iff.mp hs
    exact ((publication_established x).guaranteed c p a w l h trivial ha).1.1
  | env ev =>
    obtain ⟨w, he, rfl⟩ := Option.map_eq_some_iff.mp hs
    obtain ⟨-, -, houtbox⟩ := World.event_tables he
    exact .of_some fun _ _ hrow => houtbox ▸ hrow

/-- What any number of steps leave of a row. -/
theorem Reached.event_continues (h : Reached x c) (h' : Reachable (platform x) (fun _ _ => True) c c') :
    c.shared.tables.KeepsEvents c'.shared.tables := by
  induction h' with
  | refl => exact .of_some fun _ _ hrow => hrow
  | step hd _ hs ih =>
    intro id row hrow
    obtain ⟨row₁, hrow₁, hsame₁, hfrozen₁⟩ := ih id row hrow
    have hr : Reached x _ := h.trans hd
    obtain ⟨row₂, hrow₂, hsame₂, hfrozen₂⟩ := hr.keepsEvents hs id row₁ hrow₁
    refine ⟨row₂, hrow₂, hsame₂.trans hsame₁, fun hne => ?_⟩
    have heq := hfrozen₁ hne
    exact (hfrozen₂ (heq ▸ hne)).trans heq

/-- A row of an open batch stays as it is in every step but the commit of the batch. -/
theorem Reached.batch_step (h : Reached x c) {p : Pid} {event : OutboxEvent} (he : event ∈ (c.procs p).batch)
    {l : Label Pid Action External.Event} (hs : (platform x).step c l = some c') :
    c'.shared.tables.outbox.find? event.id = some event ∨ ∃ i publisher marked,
      (l = .act p (.run i) ∨ l = .act p (.lost i)) ∧ c.procs p = .publish publisher (.publish marked []) := by
  obtain ⟨howner, hrow⟩ := Proc.batch_valid ((holding_established x).holds c h |>.2 p) he
  cases l with
  | env ev =>
    obtain ⟨w, hev, rfl⟩ := Option.map_eq_some_iff.mp hs
    obtain ⟨-, -, houtbox⟩ := World.event_tables hev
    exact .inl (houtbox ▸ hrow)
  | act q a =>
    obtain ⟨⟨w, l⟩, ha, rfl⟩ := Option.map_eq_some_iff.mp hs
    by_cases hq : q = p
    · subst hq
      cases hl : c.procs q with
      | publish publisher pc =>
        -- A statement of the batch that is no commit leaves the tables alone.
        have hstatement {i : Input} {w : World} (hw : c.shared.apply q ((c.procs q).next x q c.shared i).1 = some w) :
            w.tables.outbox.find? event.id = some event ∨
              ∃ marked, (c.procs q) = .publish publisher (.publish marked []) := by
          cases hcommit : ((c.procs q).next x q c.shared i).1.commits with
          | false => exact .inl (tables_apply hcommit hw ▸ hrow)
          | true =>
            obtain ⟨change, entries, hchange⟩ := (Effect.commits_iff _).mp hcommit
            have hcommits := Proc.commits (Prod.mk.eta (p := (c.procs q).next x q c.shared i)).symm hchange
            rw [hl] at hcommits ⊢
            cases hcommits with
            | publish _ marked => exact .inr ⟨marked, rfl⟩
        cases a with
        | start task =>
          obtain ⟨hidle, -⟩ := Option.ite_none_right_eq_some.mp ha
          rw [hl] at hidle
          contradiction
        | run i =>
          obtain ⟨w₁, hw, h'⟩ := Option.map_eq_some_iff.mp ha
          obtain ⟨rfl, -⟩ := Prod.mk.inj h'
          exact (hstatement hw).imp_right fun ⟨marked, hpc⟩ => ⟨i, publisher, marked, .inl rfl, hl ▸ hpc⟩
        | lost i =>
          obtain ⟨w₁, hw, h'⟩ := Option.map_eq_some_iff.mp ha
          obtain ⟨rfl, -⟩ := Prod.mk.inj h'
          exact (hstatement hw).imp_right fun ⟨marked, hpc⟩ => ⟨i, publisher, marked, .inr rfl, hl ▸ hpc⟩
        | fail => exact .inl ((Prod.mk.inj (Option.some.inj ha)).1 ▸ hrow)
        | crash => exact .inl ((Prod.mk.inj (Option.some.inj ha)).1 ▸ hrow)
      | _ =>
        rw [hl] at he
        contradiction
    · have hrespects := (holding_established x).guaranteed c q a w l h trivial ha
      exact .inl (hrespects.events event.id event (fun hown => hq (Option.some.inj (hown.symm.trans howner))) hrow)

/-- Publication is at least once, exclusive and loses nothing. What is published was acknowledged; rows stay, and are
published for good; open batches share no event; the events of an open batch are unpublished, and stay so unless its
commit takes effect; and what is returned is the number of events which that commit marked. -/
theorem outbox_publication (h : Reached x c) :
    (∀ id row, c.shared.tables.outbox.find? id = some row → row.publishedAt ≠ none →
      Entry.acknowledged id ∈ c.shared.history) ∧
    (∀ c', Reachable (platform x) (fun _ _ => True) c c' → ∀ id row, c.shared.tables.outbox.find? id = some row →
      ∃ row', c'.shared.tables.outbox.find? id = some row' ∧
        (row'.id, row'.runId, row'.eventType, row'.createdAt) = (row.id, row.runId, row.eventType, row.createdAt) ∧
        (row.publishedAt ≠ none → row'.publishedAt = row.publishedAt)) ∧
    (∀ p q, p ≠ q → ∀ event ∈ (c.procs p).batch, ∀ event' ∈ (c.procs q).batch, event.id ≠ event'.id) ∧
    (∀ p, ∀ event ∈ (c.procs p).batch, c.shared.tables.outbox.find? event.id = some event ∧
      event.publishedAt = none ∧ ∀ l c', (platform x).step c l = some c' →
        c'.shared.tables.outbox.find? event.id = some event ∨ ∃ i publisher marked,
          (l = .act p (.run i) ∨ l = .act p (.lost i)) ∧ c.procs p = .publish publisher (.publish marked [])) ∧
    ∀ p i publisher pc n c', c.procs p = .publish publisher pc → (platform x).step c (.act p (.run i)) = some c' →
      (PublishOutbox.step x.isoformat publisher p c.shared i pc).2 = .returned n →
      ∃ marked, pc = .publish marked [] ∧ n = marked.length ∧ (marked.map (·.1.id)).Nodup ∧
        (∀ mark ∈ marked, c.shared.tables.outbox.find? mark.1.id = some mark.1 ∧ mark.1.publishedAt = none ∧
          c'.shared.tables.outbox.find? mark.1.id = some (mark.1.published mark.2)) ∧
        ∀ id, id ∉ marked.map (·.1.id) → c'.shared.tables.outbox.find? id = c.shared.tables.outbox.find? id := by
  obtain ⟨⟨hinv, -⟩, hall⟩ := (publication_established x).holds c h
  have hvalid (p : Pid) (event : OutboxEvent) (he : event ∈ (c.procs p).batch) :
      (Hold.event event).Valid p c.shared := Proc.batch_valid (hall p).2.2 he
  refine ⟨hinv, fun c' h' id row hrow => ?_, fun p q hne event he event' he' hid => ?_, fun p event he => ?_, ?_⟩
  · obtain ⟨row', hrow', hsame, hfrozen⟩ := h.event_continues h' id row hrow
    obtain ⟨hid, hrun, htype, hcreated⟩ := (OutboxEvent.mk.injEq ..).mp hsame
    exact ⟨row', hrow', by rw [hid, hrun, htype, hcreated.1], fun hne => congrArg _ (hfrozen hne)⟩
  · have howner := (hvalid p event he).1
    have howner' := (hvalid q event' he').1
    rw [hid] at howner
    exact hne (Option.some.inj (howner.symm.trans howner'))
  · refine ⟨(hvalid p event he).2, ?_, fun l c' hs => h.batch_step he hs⟩
    have hk := (hall p).1
    cases hl : c.procs p with
    | publish publisher pc =>
      rw [hl] at hk he
      exact hk.unpublished event he
    | _ =>
      rw [hl] at he
      contradiction
  · intro p i publisher pc n c' hl hs hreturned
    obtain ⟨⟨w', l'⟩, ha, rfl⟩ := Option.map_eq_some_iff.mp hs
    obtain ⟨w₁, hw, h'⟩ := Option.map_eq_some_iff.mp ha
    obtain ⟨rfl, -⟩ := Prod.mk.inj h'
    have hk := (hall p).1
    rw [hl] at hk hw
    generalize hstep : PublishOutbox.step x.isoformat publisher p c.shared i pc = answer at hreturned
    obtain ⟨e, r⟩ := answer
    obtain rfl : r = .returned n := hreturned
    obtain ⟨marked, rfl, hn, he⟩ := PublishOutbox.returned hstep
    have heffect : (PublishOutbox.step x.isoformat publisher p c.shared i (.publish marked [])).1 = e :=
      congrArg Prod.fst hstep
    have hcommit : c.shared.apply p e = some w₁ := heffect ▸ hw
    obtain ⟨tables, ht, rfl⟩ := commit_apply (he ▸ hcommit)
    have hbatch : ∀ event ∈ PublishOutbox.batch (.publish marked []), event ∈ (c.procs p).batch := by
      rw [hl]
      exact fun _ he => he
    obtain ⟨hmarked, hother⟩ := PublishOutbox.commit_apply hk (fun event he => (hvalid p event (hbatch event he)).2) ht
    have hnodup := hk.nodup
    simp only [PublishOutbox.batch, PublishOutbox.remaining, List.append_nil, List.map_map] at hnodup
    refine ⟨marked, rfl, hn, hnodup, fun mark hm => ?_, hother⟩
    have hevent : mark.1 ∈ PublishOutbox.batch (.publish marked []) := List.mem_append_left _ (List.mem_map_of_mem hm)
    exact ⟨(hvalid p _ (hbatch _ hevent)).2, hk.unpublished _ hevent, hmarked mark hm⟩

theorem outbox_publication_demo : ∃ c r, Demo.row c = some r ∧ r.status = .succeeded ∧
    (∀ id row, c.shared.tables.outbox.find? id = some row → row.publishedAt ≠ none →
      Entry.acknowledged id ∈ c.shared.history) ∧
    ∀ c', Reachable (platform Demo.external) (fun _ _ => True) c c' → ∀ id row,
      c.shared.tables.outbox.find? id = some row → (c'.shared.tables.outbox.find? id).isSome := by
  obtain ⟨c, r, hc, hr, hs, -⟩ := Demo.finished
  obtain ⟨hacknowledged, hkeeps, -⟩ := outbox_publication (Demo.reached hc)
  refine ⟨c, r, hr, hs, hacknowledged, fun c' h' id row hrow => ?_⟩
  obtain ⟨row', hrow', -⟩ := hkeeps c' h' id row hrow
  exact Option.isSome_iff_exists.mpr ⟨row', hrow'⟩

end Runs
end Mic3
