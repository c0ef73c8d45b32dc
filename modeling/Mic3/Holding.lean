import Mic3.Holds

/-! What every process holds is really held, in every reachable configuration: the bottom layer on which
every other property of the database rests. -/
namespace Mic3
open Relational Interleaving

/-- What a process holds is really held. -/
structure Holding (p : Pid) (l : Proc) (w : World) : Prop where
  valid : ∀ h ∈ l.holds, h.Valid p w
  session : ∀ key ∈ l.sessionKey, w.pg.sessionLocks key = some p

def holding : Contract Pid World Proc := ⟨fun _ => True, Holding, Respects⟩

section Layer
variable {x : External} {p : Pid} {w w' : World} {i : Input} {e : Effect} {l l' : Proc}

theorem Holding.of_nothing (hh : l.holds = []) (hk : l.sessionKey = none) : Holding p l w :=
  ⟨by simp [hh], by simp [hk]⟩

/-- A reconcile call owns its session lock from the start. -/
theorem Holding.owns {worker : Worker} {runId : UUID} {pc : Reconcile.Pc}
    (hl : Holding p (.reconcile worker runId pc) w) (hpc : pc ≠ .acquire) :
    w.pg.sessionLocks (runKey runId) = some p := by
  apply hl.session
  cases pc <;> first | rfl | exact absurd rfl hpc

theorem Progress.proc_holds {π ρ : Type} {f : π → Proc} {g : π → List Hold}
    (hfg : ∀ pc, (f pc).holds = g pc) (r : Progress π ρ) : (r.proc f).holds = r.holds g := by
  cases r with
  | running pc => exact hfg pc
  | returned _ | raised _ => rfl

theorem Progress.proc_sessionKey {π ρ : Type} {f : π → Proc} (hf : ∀ pc, (f pc).sessionKey = none)
    (r : Progress π ρ) : (r.proc f).sessionKey = none := by
  cases r with
  | running pc => exact hf pc
  | returned _ | raised _ => rfl

theorem Progress.proc_reconcile_sessionKey {worker : Worker} {runId : UUID} {key : ℤ}
    {r : Progress Reconcile.Pc Unit} (hk : key ∈ (r.proc (.reconcile worker runId)).sessionKey) :
    key = runKey runId ∧ ∃ pc, r = .running pc := by
  cases r with
  | running pc =>
    refine ⟨?_, pc, rfl⟩
    cases pc <;> first | contradiction | exact (Option.some.inj hk).symm
  | returned _ | raised _ => contradiction

theorem Proc.holding_step (hs : l.next x p w i = (e, l')) (hl : Holding p l w)
    (ha : w.apply p e = some w') : e.Permitted p w ∧ Holding p l' w' := by
  have hplain {π ρ : Type} {f : π → Proc} {g : π → List Hold} {r : Progress π ρ}
      (hf : ∀ pc, (f pc).holds = g pc) (hk : ∀ pc, (f pc).sessionKey = none)
      (h : e.Permitted p w ∧ ∀ h ∈ r.holds g, h.Valid p w') :
      e.Permitted p w ∧ Holding p (r.proc f) w' := by
    refine ⟨h.1, ?_, ?_⟩
    · rw [Progress.proc_holds hf]
      exact h.2
    · rw [Progress.proc_sessionKey hk]
      intro key hkey
      cases hkey
  cases l with
  | idle | unwinding =>
    obtain ⟨rfl, rfl⟩ := Prod.mk.inj hs
    exact ⟨trivial, .of_nothing rfl rfl⟩
  | submit call pc =>
    obtain ⟨rfl, rfl⟩ := Prod.mk.inj hs
    exact hplain (fun _ => rfl) (fun _ => rfl) (SubmitRun.holds_step rfl hl.valid ha)
  | register definition pc =>
    obtain ⟨rfl, rfl⟩ := Prod.mk.inj hs
    exact hplain (fun _ => rfl) (fun _ => rfl) (Catalog.holds_step rfl hl.valid ha)
  | accept runId pc =>
    obtain ⟨rfl, rfl⟩ := Prod.mk.inj hs
    exact hplain (fun _ => rfl) (fun _ => rfl) (AcceptRun.holds_step rfl hl.valid ha)
  | claim worker pc =>
    obtain ⟨rfl, rfl⟩ := Prod.mk.inj hs
    exact hplain (fun _ => rfl) (fun _ => rfl) (ClaimNext.holds_step rfl hl.valid ha)
  | publish publisher pc =>
    obtain ⟨rfl, rfl⟩ := Prod.mk.inj hs
    exact hplain (fun _ => rfl) (fun _ => rfl) (PublishOutbox.holds_step rfl hl.valid ha)
  | consume topic pc =>
    obtain ⟨rfl, rfl⟩ := Prod.mk.inj hs
    exact hplain (fun _ => rfl) (fun _ => rfl) (Consumer.holds_step rfl hl.valid ha)
  | reconcile worker runId pc =>
    obtain ⟨rfl, rfl⟩ := Prod.mk.inj hs
    have hkey := hl.owns
    obtain ⟨hp, hv⟩ := Reconcile.holds_step rfl hl.valid hkey ha
    refine ⟨hp, ?_, fun key hk => ?_⟩
    · rw [Progress.proc_holds fun _ => rfl]
      exact hv
    · obtain ⟨rfl, pc', hr⟩ := Progress.proc_reconcile_sessionKey hk
      exact Reconcile.session_step rfl hkey ha hr

/-- An exception leaves nothing held but a reconcile call's session lock. -/
theorem Proc.holding_failing (hl : Holding p l w)
    (hkey : ∀ key ∈ l.failing.sessionKey, w'.pg.sessionLocks key = some p) : Holding p l.failing w' := by
  refine ⟨?_, hkey⟩
  have hnil : l.failing.holds = [] := by
    cases l with
    | reconcile worker runId pc => cases pc <;> rfl
    | _ => rfl
  simp [hnil]

theorem Proc.failing_session_step (hs : l.next x p w i = (e, l')) (hl : Holding p l w)
    (ha : w.apply p e = some w') : ∀ key ∈ l.failing.sessionKey, w'.pg.sessionLocks key = some p := by
  intro key hk
  cases l with
  | reconcile worker runId pc =>
    obtain ⟨rfl, rfl⟩ := Prod.mk.inj hs
    have hpc : (∀ error, pc ≠ .exit error) ∧ pc ≠ .acquire ∧ key = runKey runId := by
      cases pc <;> first | contradiction | exact ⟨nofun, nofun, (Option.some.inj hk).symm⟩
    obtain ⟨hexit, hacq, rfl⟩ := hpc
    obtain ⟨hu, hd⟩ := Reconcile.unlocks_at_exit rfl hexit
    exact session_apply ha hu hd (hl.owns hacq)
  | _ => contradiction

/-- What one action of a process can do to the world: nothing, or one permitted effect. -/
theorem platform_act_cases {a : Action} (ha : platformAct x p a w l = some (w', l')) (hl : Holding p l w) :
    (w' = w ∨ ∃ e : Effect, e.Permitted p w ∧ w.apply p e = some w') ∧ Holding p l' w' := by
  cases a with
  | start task =>
    obtain ⟨-, h⟩ := Option.ite_none_right_eq_some.mp ha
    obtain ⟨rfl, rfl⟩ := Prod.mk.inj (Option.some.inj h)
    exact ⟨.inl rfl, by cases task <;> exact .of_nothing rfl rfl⟩
  | run i =>
    obtain ⟨w₁, hw, h⟩ := Option.map_eq_some_iff.mp ha
    obtain ⟨rfl, rfl⟩ := Prod.mk.inj h
    obtain ⟨hp, hl'⟩ := Proc.holding_step rfl hl hw
    exact ⟨.inr ⟨_, hp, hw⟩, hl'⟩
  | lost i =>
    obtain ⟨w₁, hw, h⟩ := Option.map_eq_some_iff.mp ha
    obtain ⟨rfl, rfl⟩ := Prod.mk.inj h
    obtain ⟨hp, -⟩ := Proc.holding_step rfl hl hw
    exact ⟨.inr ⟨_, hp, hw⟩, Proc.holding_failing hl (Proc.failing_session_step rfl hl hw)⟩
  | fail =>
    obtain ⟨rfl, rfl⟩ := Prod.mk.inj (Option.some.inj ha)
    refine ⟨.inl rfl, Proc.holding_failing hl fun key hk => hl.session key ?_⟩
    cases l with
    | reconcile worker runId pc => cases pc <;> first | contradiction | exact hk
    | _ => contradiction
  | crash =>
    obtain ⟨rfl, rfl⟩ := Prod.mk.inj (Option.some.inj ha)
    exact ⟨.inr ⟨.disconnect, trivial, rfl⟩, .of_nothing rfl rfl⟩

end Layer

/-- What others do leaves the database's locks and rows alone. -/
theorem World.event_pg {w w' : World} {ev : External.Event} (h : w.event ev = some w') :
    ∃ users, w'.pg = { w.pg with tables := { w.tables with users } } := by
  cases ev with
  | updateJob key job =>
    obtain ⟨old, -, rfl⟩ := Option.map_eq_some_iff.mp h
    exact ⟨_, rfl⟩
  | createJob key job =>
    obtain ⟨-, rfl⟩ := create_apply h
    exact ⟨_, rfl⟩
  | deliver sent partition =>
    obtain ⟨record, -, rfl⟩ := Option.map_eq_some_iff.mp h
    exact ⟨_, rfl⟩
  | addUser | deleteJob | append | revoke =>
    obtain rfl := Option.some.inj h
    exact ⟨_, rfl⟩

theorem World.event_history {w w' : World} {ev : External.Event} (h : w.event ev = some w') :
    w'.history = w.history := by
  cases ev with
  | updateJob key job =>
    obtain ⟨old, -, rfl⟩ := Option.map_eq_some_iff.mp h
    rfl
  | createJob key job =>
    obtain ⟨-, rfl⟩ := create_apply h
    rfl
  | deliver sent partition =>
    obtain ⟨record, -, rfl⟩ := Option.map_eq_some_iff.mp h
    rfl
  | addUser | deleteJob | append | revoke =>
    obtain rfl := Option.some.inj h
    rfl

theorem respects_refl (p : Pid) (w : World) : Respects p w w :=
  ⟨fun _ _ _ h => h, fun _ _ _ h => h, fun _ _ _ h => h, fun _ _ _ h => h, fun _ _ _ h => h⟩

theorem holding_proof (x : External) :
    holding.Proof .trivial (platform x) fun _ _ => True where
  act := by
    intro p a w l w' l' _ ha _ _ _ _ hl
    obtain ⟨hw, hl'⟩ := platform_act_cases ha hl
    refine ⟨trivial, hl', ?_⟩
    rcases hw with rfl | ⟨e, hp, he⟩
    · exact respects_refl p w'
    · exact respects_apply hp he
  stable := by
    intro p q l w w' hne _ _ _ hr _ hl
    exact ⟨fun h hh => (hl.valid h hh).stable hr (Ne.symm hne),
      fun key hk => hr.sessions q key (Ne.symm hne) (hl.session key hk)⟩
  env := by
    intro ev w w' _ he _ _
    obtain ⟨users, hpg⟩ := World.event_pg he
    refine ⟨trivial, fun q l _ hl => ⟨fun h hh => ?_, fun key hk => ?_⟩⟩
    · have hv := hl.valid h hh
      cases h <;> simpa only [Hold.Valid, World.tables, hpg] using hv
    · simpa only [hpg] using hl.session key hk

theorem holding_established (x : External) :
    holding.Established (platform x) (fun _ _ => True) initial :=
  ((holding_proof x).established Contract.trivial_established
    ⟨trivial, fun _ => .of_nothing rfl rfl⟩).left

end Mic3
