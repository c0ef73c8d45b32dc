import Mic3.Holding

/-! A layer over the locks: a contract whose assertions say nothing of a process that is idle or
unwinding owes one step lemma, whatever happens to the statement or its process. -/
namespace Mic3
open Relational Interleaving

/-- What a layer owes: what a task starts with, what is left when it fails, and what one statement does. -/
structure Layer (C base : Contract Pid World Proc) (x : External) : Prop where
  start : ∀ p task w, C.assert p (Task.proc task) w
  failing : ∀ p l w, C.assert p (Proc.failing l) w
  refl : ∀ p w, C.guarantee p w w
  step : ∀ p w i l e l' w', l.next x p w i = (e, l') → w.apply p e = some w' → base.inv w →
    base.assert p l w → base.guarantee p w w' → C.inv w → C.assert p l w →
    C.inv w' ∧ C.assert p l' w' ∧ C.guarantee p w w'

variable {C base : Contract Pid World Proc} {x : External} {p : Pid} {w w' : World} {l l' : Proc}

theorem Layer.act (h : Layer C base x) (hbase : ∀ p w, base.inv w → base.assert p .unwinding w)
    {a : Action} (ha : platformAct x p a w l = some (w', l')) (hinv : base.inv w)
    (hassert : base.assert p l w) (hg : base.guarantee p w w') (hc : C.inv w) (hk : C.assert p l w) :
    C.inv w' ∧ C.assert p l' w' ∧ C.guarantee p w w' := by
  cases a with
  | start task =>
    obtain ⟨-, h'⟩ := Option.ite_none_right_eq_some.mp ha
    obtain ⟨rfl, rfl⟩ := Prod.mk.inj (Option.some.inj h')
    exact ⟨hc, h.start p task w, h.refl p w⟩
  | run i =>
    obtain ⟨w₁, hw, h'⟩ := Option.map_eq_some_iff.mp ha
    obtain ⟨rfl, rfl⟩ := Prod.mk.inj h'
    exact h.step p w i l _ _ w₁ rfl hw hinv hassert hg hc hk
  | lost i =>
    obtain ⟨w₁, hw, h'⟩ := Option.map_eq_some_iff.mp ha
    obtain ⟨rfl, rfl⟩ := Prod.mk.inj h'
    obtain ⟨hc', -, hg'⟩ := h.step p w i l _ _ w₁ rfl hw hinv hassert hg hc hk
    exact ⟨hc', h.failing p l w₁, hg'⟩
  | fail =>
    obtain ⟨rfl, rfl⟩ := Prod.mk.inj (Option.some.inj ha)
    exact ⟨hc, h.failing p l w, h.refl p w⟩
  | crash =>
    obtain ⟨rfl, rfl⟩ := Prod.mk.inj (Option.some.inj ha)
    -- The server does for a dead process what it does for one whose program ends in an exception.
    exact h.step p w ⟨0, 0, 0, 0, false, false, ⟨"", .null, .null, .null, []⟩, [], [], ("", 0)⟩
      .unwinding .disconnect .idle _ rfl rfl hinv (hbase p w hinv) hg hc (h.failing p .unwinding w)

/-- What a process was started with. -/
def Proc.task : Proc → Option Task
  | .idle | .unwinding => none
  | .submit call _ => some (.submit call)
  | .register definition _ => some (.register definition)
  | .accept runId _ => some (.accept runId)
  | .claim worker _ => some (.claim worker)
  | .reconcile worker runId _ => some (.reconcile worker runId)
  | .publish publisher _ => some (.publish publisher)
  | .consume topic _ => some (.consume topic)

theorem Progress.proc_task {π ρ : Type} {f : π → Proc} {task : Task} (hf : ∀ pc, (f pc).task = some task)
    (r : Progress π ρ) : (r.proc f).task = none ∨ (r.proc f).task = some task := by
  cases r with
  | running pc => exact .inr (hf pc)
  | returned _ | raised _ => exact .inl rfl

theorem Proc.next_task (l : Proc) (w : World) (i : Input) :
    (l.next x p w i).2.task = none ∨ (l.next x p w i).2.task = l.task := by
  cases l with
  | idle | unwinding => exact .inl rfl
  | _ => exact Progress.proc_task (fun _ => rfl) _

theorem Proc.failing_task (l : Proc) : l.failing.task = none ∨ l.failing.task = l.task := by
  cases l with
  | reconcile worker runId pc => cases pc <;> first | exact .inl rfl | exact .inr rfl
  | _ => exact .inl rfl

/-- A process works on the task it was started with. -/
theorem platformAct_task {a : Action} (ha : platformAct x p a w l = some (w', l')) :
    l'.task = none ∨ l'.task = l.task ∨ ∃ task, a = .start task ∧ l'.task = some task := by
  cases a with
  | start task =>
    obtain ⟨-, h⟩ := Option.ite_none_right_eq_some.mp ha
    obtain ⟨-, rfl⟩ := Prod.mk.inj (Option.some.inj h)
    exact .inr (.inr ⟨task, rfl, by cases task <;> rfl⟩)
  | run i =>
    obtain ⟨w₁, -, h⟩ := Option.map_eq_some_iff.mp ha
    obtain ⟨-, rfl⟩ := Prod.mk.inj h
    exact (l.next_task w i).imp_right .inl
  | lost i =>
    obtain ⟨w₁, -, h⟩ := Option.map_eq_some_iff.mp ha
    obtain ⟨-, rfl⟩ := Prod.mk.inj h
    exact l.failing_task.imp_right .inl
  | fail =>
    obtain ⟨-, rfl⟩ := Prod.mk.inj (Option.some.inj ha)
    exact l.failing_task.imp_right .inl
  | crash =>
    obtain ⟨-, rfl⟩ := Prod.mk.inj (Option.some.inj ha)
    exact .inl rfl

/-- The steps in which processes start only tasks that satisfy `P`. -/
def Starts (P : Task → Prop) (_ : World) : Label Pid Action External.Event → Prop
  | .act _ (.start task) => P task
  | _ => True

/-- What every task that is started satisfies holds of what every process works on. -/
theorem started {P : Task → Prop} {c : Config Pid World Proc}
    (h : Reachable (platform x) (Starts P) initial c) : ∀ q, ∀ task ∈ (c.procs q).task, P task := by
  refine h.invariant (fun c => ∀ q, ∀ task ∈ (c.procs q).task, P task)
    (fun _ task h => absurd h (Option.not_mem_none task)) ?_
  intro c c' l _ hall hok hs q task ht
  cases l with
  | env ev =>
    obtain ⟨w, -, rfl⟩ := Option.map_eq_some_iff.mp hs
    exact hall q task ht
  | act p a =>
    obtain ⟨⟨w, l⟩, ha, rfl⟩ := Option.map_eq_some_iff.mp hs
    by_cases hq : q = p
    · subst hq
      simp only [Function.update_self] at ht
      rcases platformAct_task ha with hnone | hsame | ⟨task', rfl, hstart⟩
      · rw [hnone] at ht
        contradiction
      · exact hall q task (hsame ▸ ht)
      · obtain rfl : task' = task := Option.some.inj (hstart.symm.trans ht)
        exact hok
    · simp only [Function.update_of_ne hq] at ht
      exact hall q task ht

end Mic3
