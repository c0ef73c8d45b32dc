import Mic3.LockOrder

/-! No transactions wait for each other: who is waited for always stands higher in the order of the locks. -/
namespace Mic3
open Relational Interleaving

section Layer
variable {x : External} {p q : Pid} {w w' : World} {i : Input} {e : Effect} {l l' : Proc}

/-- What a step does to the locks of the others and to what they lock. -/
theorem undisturbed (hs : l.next x p w i = (e, l')) (hl : Holding p l w) (hexclusive : w.pg.locks.Exclusive)
    (hrespects : Respects p w w') (hregisters : Registers p w w') (ha : w.apply p e = some w') : Undisturbed p w w' := by
  refine ⟨fun q k hq hk => ?_, fun q key hq hkey => ?_, fun id hid => ?_⟩
  · have hheld := holds_apply_of_ne ha hq hk
    refine ⟨hheld, ?_⟩
    have hrow (hadvisory : ∀ key, k ≠ .advisory key) : w.pg.locks.owner k ≠ some p := by
      intro howner
      rcases hheld with hlocks | ⟨key, he, -⟩
      · exact hq (hexclusive.eq howner hlocks)
      · exact hadvisory key he
    cases k with
    | run id =>
      have hother := hrow fun key he => by cases he
      cases hf : w.tables.runs.find? id with
      | some row => rw [rank_run hf, rank_run (hrespects.runs id row hother hf)]
      | none =>
        have hf' : w'.tables.runs.find? id = none := by
          by_contra hsome
          exact hother (run_added hs hl ha hf (Option.isSome_iff_ne_none.mpr hsome))
        rw [rank_newRun hf, rank_newRun hf']
    | release id =>
      have hother := hrow fun key he => by cases he
      cases hf : w.tables.releases.find? id with
      | some row =>
        obtain ⟨row', hf', -⟩ := hregisters.releases id row hf
        rw [rank_release (Option.isSome_of_mem hf), rank_release (Option.isSome_of_mem hf')]
      | none =>
        have hf' : w'.tables.releases.find? id = none := by
          cases hsome : w'.tables.releases.find? id with
          | none => rfl
          | some row' => exact absurd (hregisters.added id row' hsome hf).2 hother
        rw [rank_newRelease hf, rank_newRelease hf']
    | advisory | model | user | event | rejection => rfl
  · rcases sessionHolders_apply ha hkey with hheld | ⟨he, -⟩
    · exact hheld
    · exact absurd he hq
  · obtain ⟨row, hrow⟩ := Option.isSome_iff_exists.mp hid
    obtain ⟨row', hrow', -⟩ := hregisters.releases id row hrow
    exact Option.isSome_of_mem hrow'

theorem undisturbed_refl (p : Pid) (w : World) : Undisturbed p w w :=
  ⟨fun _ _ _ h => ⟨h, rfl⟩, fun _ _ _ h => h, fun _ h => h⟩

theorem Catalog.single_next {definition : Registrable} {pc : Pc} {r : Progress Pc ModelRelease}
    (hc : w.tables.Catalogued) (hsingle : (Proc.register definition pc).Single w)
    (hreleases : ∀ id, (w.tables.releases.find? id).isSome → (w'.tables.releases.find? id).isSome)
    (hs : step definition.1 w i pc = (e, r)) : r.All fun pc => (Proc.register definition pc).Single w' := by
  rcases step_cases hs with ⟨-, err, rfl⟩ | h
  · trivial
  cases pc with
  | insertModel =>
    obtain ⟨-, -, rfl⟩ | ⟨-, -, rfl⟩ := h
    · trivial
    · trivial
  | lockModel inserted =>
    obtain ⟨model, -, -, rfl⟩ := h
    trivial
  | selectReleases model inserted =>
    obtain ⟨-, rfl⟩ := h
    refine ⟨matching_le_one hc definition.1, fun id hid => hreleases id ?_⟩
    obtain ⟨row, hrow, rfl⟩ := List.mem_map.mp hid
    obtain ⟨hrow, -⟩ := List.mem_filter.mp ((orderedBy_perm ..).mem_iff.mp hrow)
    exact Option.isSome_of_mem (Table.find?_of_mem hrow)
  | lockReleases model inserted remaining found =>
    obtain ⟨id, ids, rfl, -, rfl⟩ | ⟨-, -, -, rfl⟩ | ⟨-, release, others, -, -, rfl⟩ := h
    · obtain ⟨hlength, hcommitted⟩ := hsingle
      exact ⟨(Nat.le_succ _).trans hlength, fun j hj => hreleases j (hcommitted j (List.mem_cons_of_mem _ hj))⟩
    · trivial
    · trivial
  | insertRelease model inserted =>
    obtain ⟨-, row, -, -, rfl⟩ := h
    trivial
  | activeModes model inserted release =>
    obtain ⟨-, -, rfl⟩ := h
    trivial
  | commit registration =>
    obtain ⟨-, release, rfl⟩ := h
    trivial

theorem Proc.single_next (hs : l.next x p w i = (e, l')) (hc : w.tables.Catalogued) (hsingle : l.Single w)
    (hreleases : ∀ id, (w.tables.releases.find? id).isSome → (w'.tables.releases.find? id).isSome) : l'.Single w' := by
  cases l with
  | idle | unwinding =>
    obtain ⟨-, rfl⟩ := Prod.mk.inj hs
    trivial
  | register definition pc =>
    obtain ⟨-, rfl⟩ := Prod.mk.inj hs
    exact (Catalog.single_next hc hsingle hreleases rfl).proc (Q := fun l => l.Single w') (fun _ h => h) trivial
  | _ =>
    obtain ⟨-, rfl⟩ := Prod.mk.inj hs
    exact (Progress.all_true _).proc (Q := fun l => l.Single w') (fun _ _ => trivial) trivial

/-- A statement that succeeds leaves its process in order. -/
theorem InOrder.next (hk : InOrder p l w) (hs : l.next x p w i = (e, l')) (hl : Holding p l w)
    (hc : w.tables.Catalogued) (hdisturbs : Undisturbed p w w') (ha : w.apply p e = some w') : InOrder p l' w' := by
  have horderly := Proc.orderly hs hl hk.single
  have hsession (key : ℤ) (hkey : w'.pg.sessionLocks key = some p) : l' = .unwinding ∨ l'.sessionKey = some key := by
    rcases sessionHolders_apply ha hkey with hheld | ⟨-, rfl⟩
    · rcases hk.session key hheld with rfl | hown
      · -- What an unwinding process holds goes.
        obtain ⟨rfl, -⟩ := Prod.mk.inj hs
        obtain rfl := Option.some.inj ha
        simp only [World.disconnect] at hkey
        split at hkey
        · contradiction
        · exact absurd hkey ‹_›
      · exact .inr (Proc.sessionKey_next hs ha hown hkey)
    · obtain ⟨worker, runId, -, rfl, rfl⟩ := Proc.sessionLock_next hs
      exact .inr rfl
  refine ⟨fun k hheld => ?_, hsession, Proc.single_next hs hc hk.single hdisturbs.releases⟩
  rcases hheld with hlocks | ⟨key, rfl, hkey⟩
  · have hsame (hcontinues : e.continues = true) : w'.rank k = w.rank k :=
      rank_of_tables (continues_apply hcontinues ha).1
    rcases holders_apply ha hlocks with ⟨hheld, hcontinues⟩ | ⟨-, hasks⟩
    · rw [hsame (hcontinues rfl)]
      exact (hk.held k (.inl hheld)).trans_le (horderly.rises (hcontinues rfl))
    · have hcontinues : e.continues = true := by
        rcases hasks with rfl | rfl
        all_goals rfl
      rw [hsame hcontinues]
      exact horderly.fits k hasks
  · rcases hsession key hkey with rfl | hown
    · exact Nat.succ_pos 5
    · exact Proc.level_of_sessionKey hown

/-- A process that an exception stops may hold whatever it held. -/
theorem InOrder.failing (hidle : l = .idle → InOrder p .idle w)
    (hsession : ∀ key, w.pg.sessionLocks key = some p →
      (∃ worker runId, l = .reconcile worker runId .acquire) ∨ l = .unwinding ∨ l.sessionKey = some key) :
    InOrder p l.failing w := by
  cases l with
  | idle => exact hidle rfl
  | reconcile worker runId pc =>
    refine ⟨fun k _ => ?_, fun key hkey => ?_, ?_⟩
    · cases pc
      all_goals exact rank_lt_six w k
    · cases pc with
      | acquire | exit => exact .inl rfl
      | _ =>
        rcases hsession key hkey with ⟨worker, runId, h⟩ | h | h
        · cases h
        · cases h
        · exact .inr h
    · cases pc
      all_goals trivial
  | _ => exact ⟨fun k _ => rank_lt_six w k, fun _ _ => .inl rfl, trivial⟩

/-- The server drops what a dead process held. -/
theorem disconnect_holds {k : LockKey} : ¬ (w.disconnect p).Holds p k := by
  rintro (hlocks | ⟨key, rfl, hkey⟩)
  · exact (LockTable.holds_release hlocks).2 rfl
  · simp only [World.disconnect] at hkey
    split at hkey
    · contradiction
    · exact absurd hkey ‹_›

theorem inOrder_of_nothing (hheld : ∀ k, ¬ w.Holds p k) (hsingle : l.Single w) : InOrder p l w :=
  ⟨fun k hk => absurd hk (hheld k), fun key hkey => absurd (.inr ⟨key, rfl, hkey⟩) (hheld (.advisory key)), hsingle⟩

end Layer

theorem lockOrder_proof (x : External) :
    lockOrder.Proof (registrations.both holding) (platform x) fun _ _ => True where
  act := by
    rintro p a w l w' l' - ha ⟨hc, -⟩ ⟨-, hl⟩ ⟨hregisters, hrespects⟩ hexclusive hk
    cases a with
    | start task =>
      obtain ⟨hidle, h⟩ := Option.ite_none_right_eq_some.mp ha
      obtain ⟨rfl, rfl⟩ := Prod.mk.inj (Option.some.inj h)
      refine ⟨hexclusive, inOrder_of_nothing (fun k hheld => ?_) (by cases task <;> trivial), undisturbed_refl p w⟩
      cases l with
      | idle => exact absurd (hk.held k hheld) (Nat.not_lt_zero _)
      | _ => contradiction
    | run i =>
      obtain ⟨w₁, hw, h⟩ := Option.map_eq_some_iff.mp ha
      obtain ⟨rfl, rfl⟩ := Prod.mk.inj h
      have hdisturbs := undisturbed rfl hl hexclusive hrespects hregisters hw
      exact ⟨exclusive_apply hexclusive hw, hk.next rfl hl hc hdisturbs hw, hdisturbs⟩
    | lost i =>
      obtain ⟨w₁, hw, h⟩ := Option.map_eq_some_iff.mp ha
      obtain ⟨rfl, rfl⟩ := Prod.mk.inj h
      have hdisturbs := undisturbed rfl hl hexclusive hrespects hregisters hw
      refine ⟨exclusive_apply hexclusive hw, .failing ?_ fun key hkey => ?_, hdisturbs⟩
      · rintro rfl
        obtain rfl := Option.some.inj hw
        exact hk
      · rcases sessionHolders_apply hw hkey with hheld | ⟨-, he⟩
        · exact .inr (hk.session key hheld)
        · obtain ⟨worker, runId, hacquire, -⟩ := Proc.sessionLock_next (Prod.ext he rfl)
          exact .inl ⟨worker, runId, hacquire⟩
    | fail =>
      obtain ⟨rfl, rfl⟩ := Prod.mk.inj (Option.some.inj ha)
      exact ⟨hexclusive, .failing (fun he => he ▸ hk) fun key hkey => .inr (hk.session key hkey), undisturbed_refl p w⟩
    | crash =>
      obtain ⟨rfl, rfl⟩ := Prod.mk.inj (Option.some.inj ha)
      have hw : w.apply p .disconnect = some (w.disconnect p) := rfl
      refine ⟨exclusive_apply hexclusive hw, inOrder_of_nothing (fun k => disconnect_holds) trivial, ?_⟩
      exact undisturbed (x := x) (i := ⟨0, 0, 0, 0, false, false, ⟨"", .null, .null, .null, []⟩, [], [], ("", 0)⟩)
        (l := .unwinding) rfl (.of_nothing rfl rfl) hexclusive hrespects hregisters hw
  stable := by
    intro p q l w w' hne _ _ _ hdisturbs _ hk
    refine ⟨fun k hheld => ?_, fun key hkey => hk.session key (hdisturbs.sessions q key (Ne.symm hne) hkey), ?_⟩
    · obtain ⟨hheld', hrank⟩ := hdisturbs.held q k (Ne.symm hne) hheld
      exact hrank ▸ hk.held k hheld'
    · cases l with
      | register definition pc =>
        cases pc with
        | lockReleases model inserted remaining found =>
          exact ⟨hk.single.1, fun id hid => hdisturbs.releases id (hk.single.2 id hid)⟩
        | _ => trivial
      | _ => trivial
  env := by
    intro ev w w' _ he _ hexclusive
    obtain ⟨users, hpg⟩ := World.event_pg he
    refine ⟨?_, fun q l _ hk => ⟨fun k hheld => ?_, fun key hkey => ?_, ?_⟩⟩
    · change w'.pg.locks.Exclusive
      rw [hpg]
      exact hexclusive
    · have hrank : w'.rank k = w.rank k := by
        unfold World.rank
        rw [World.tables, hpg]
      rw [hrank]
      refine hk.held k ?_
      unfold World.Holds at hheld
      rwa [hpg] at hheld
    · rw [hpg] at hkey
      exact hk.session key hkey
    · have hreleases : w'.tables.releases = w.tables.releases := by rw [World.tables, hpg]
      have hsingle := hk.single
      unfold Proc.Single at hsingle ⊢
      rwa [hreleases]

theorem lockOrder_established (x : External) :
    (lockOrder.both (registrations.both holding)).Established (platform x) (fun _ _ => True) initial := by
  refine (lockOrder_proof x).established (registrations_established x) ⟨LockTable.exclusive_free, fun p => ?_⟩
  refine inOrder_of_nothing (fun k hheld => ?_) trivial
  rcases hheld with (h | h) | ⟨key, -, h⟩
  · cases h
  · cases h
  · cases h

/-- The rows that an INSERT of the statement refers to and that its transaction holds itself; of the others it asks for
a share. -/
def Proc.references : Proc → List LockKey
  | .register definition (.insertRelease ..) => [.model definition.1.modelId]
  | .submit _ (.insertEvent _ row) => [.run row.id]
  | .accept _ (.commit _ u _ _) | .consume _ (.accept _ _ (.commit _ u _ _)) => [.run u.loaded.id]
  | .claim _ (.commit (some u) _) => [.run u.loaded.id]
  | .reconcile _ _ (.finish _ u) => [.run u.loaded.id]
  | _ => []

/-- The next statement of `p` asks for a key alone that `q` holds, or for a share of one that `q` holds alone. -/
def WaitsFor (x : External) (c : Config Pid World Proc) (p q : Pid) : Prop :=
  p ≠ q ∧ ∃ k, c.shared.Holds q k ∧ ((∃ i, ((c.procs p).next x p c.shared i).1 = .lock k) ∨
    c.shared.pg.locks.owner k = some q ∧
      ((∃ i, ((c.procs p).next x p c.shared i).1 = .share k) ∨ k ∈ (c.procs p).references))

section Waiting
variable {x : External} {c : Config Pid World Proc} {p q : Pid} {w : World} {l : Proc} {k : LockKey}

theorem Proc.owner_of_references (hl : Holding p l w) (hk : k ∈ l.references) : w.pg.locks.owner k = some p := by
  have hrun {u : UnitOfWork} (hheld : Hold.run u.loaded ∈ l.holds) (he : k ∈ [LockKey.run u.loaded.id]) :
      w.pg.locks.owner k = some p := by
    obtain rfl := List.mem_singleton.mp he
    exact (hl.valid _ hheld).1
  unfold references at hk
  split at hk
  · obtain rfl := List.mem_singleton.mp hk
    exact hl.valid _ List.mem_cons_self
  · obtain rfl := List.mem_singleton.mp hk
    exact hl.valid _ List.mem_cons_self
  · exact hrun (List.mem_cons_of_mem _ List.mem_cons_self) hk
  · exact hrun (List.mem_cons_of_mem _ List.mem_cons_self) hk
  · exact hrun (List.mem_cons_of_mem _ List.mem_cons_self) hk
  · exact hrun List.mem_cons_self hk
  · exact absurd hk List.not_mem_nil

/-- Who asks for what it can have waits for nobody. -/
theorem free_of_owner (hexclusive : w.pg.locks.Exclusive) (hne : p ≠ q) (hadvisory : ∀ key, k ≠ .advisory key)
    (hfree : w.pg.locks.owner k = some p ∨ (w.pg.locks.acquire p k).isSome) : ¬ w.Holds q k := by
  rintro (hlocks | ⟨key, he, -⟩)
  · rcases hfree with howner | hfree
    · exact hne (hexclusive.eq howner hlocks).symm
    · obtain ⟨locks, hacquire⟩ := Option.isSome_iff_exists.mp hfree
      obtain ⟨⟨howner, hsharers⟩, -⟩ := Option.ite_none_right_eq_some.mp hacquire
      rcases hlocks with hq | hq
      · rcases howner with hnone | hself
        · cases hnone.symm.trans hq
        · exact hne (Option.some.inj (hself.symm.trans hq))
      · exact hne (hsharers q hq).symm
  · exact hadvisory key he

/-- Who is waited for stands higher. -/
theorem WaitsFor.level (h : Reached x c) (hw : WaitsFor x c p q) : (c.procs p).level < (c.procs q).level := by
  obtain ⟨⟨hexclusive, -⟩, hall⟩ := (lockOrder_established x).holds c h
  obtain ⟨hp, -, hl⟩ := hall p
  obtain ⟨hne, k, hheld, hasks⟩ := hw
  have hbelow : c.shared.rank k < (c.procs q).level := (hall q).1.held k hheld
  have hless {i : Input} (hask : ((c.procs p).next x p c.shared i).1.Asks k) : (c.procs p).level < (c.procs q).level := by
    have horderly := Proc.orderly (i := i) (x := x) rfl hl hp.single
    rcases horderly.asks k hask with hle | ⟨hadvisory, hfree⟩
    · exact hle.trans_lt hbelow
    · exact absurd hheld (free_of_owner hexclusive hne hadvisory hfree)
  rcases hasks with ⟨i, hlock⟩ | ⟨howner, ⟨i, hshare⟩ | hreferences⟩
  · exact hless (.inl hlock)
  · exact hless (.inr hshare)
  · exact absurd (Option.some.inj ((Proc.owner_of_references hl hreferences).symm.trans howner)) hne

end Waiting

/-- No cycle of processes waits, each for a lock that the next one holds. -/
theorem waits_acyclic {x : External} {c : Config Pid World Proc} (h : Reached x c) (p : Pid) :
    ¬ Relation.TransGen (WaitsFor x c) p p := by
  have hrises {q r : Pid} (hqr : Relation.TransGen (WaitsFor x c) q r) : (c.procs q).level < (c.procs r).level := by
    induction hqr with
    | single hw => exact hw.level h
    | tail _ hw ih => exact ih.trans (hw.level h)
  exact fun hcycle => lt_irrefl _ (hrises hcycle)

namespace Demo

/-- A claim that has the capacity lock, and a second one. -/
def waiting : List Step := runs 0 (.claim worker) [0] ++ [.act 1 (.start (.claim worker))]

end Demo

theorem waits_acyclic_claims : ∃ c, Reached Demo.external c ∧ WaitsFor Demo.external c 1 0 ∧
    ∀ p, ¬ Relation.TransGen (WaitsFor Demo.external c) p p := by
  obtain ⟨c, hrun, howner, hnext⟩ : ∃ c, (platform Demo.external).run initial Demo.waiting = some c ∧
      c.shared.pg.locks.owner (.advisory capacityLock) = some 0 ∧
      ((c.procs 1).next Demo.external 1 c.shared (Demo.input 0)).1 = .lock (.advisory capacityLock) := ⟨_, rfl, rfl, rfl⟩
  have hreached : Reached Demo.external c := reachable_of_run (fun _ _ _ => trivial) hrun
  exact ⟨c, hreached, ⟨by decide, _, .inl (.inl howner), .inl ⟨_, hnext⟩⟩, fun p => waits_acyclic hreached p⟩

end Mic3
