import Mathlib.Logic.Function.Basic
import Mathlib.Data.List.Induction

/-! Processes interleaving over shared state, their reachable configurations, and the
rely-guarantee rule that carries an invariant and one assertion per process through every run. -/
namespace Interleaving

/-- Processes named by `ι`, each at a local state in `L`, over shared state `S`. A process takes an
action of `A`; the surroundings take one of `E`. An action that is not enabled returns `none`. -/
structure System (ι S L A E : Type*) where
  act : ι → A → S → L → Option (S × L)
  env : E → S → Option S

/-- One step of an interleaving: whose it is, and which. -/
inductive Label (ι A E : Type*) where
  | act (i : ι) (a : A)
  | env (e : E)

/-- The shared state and where every process stands. -/
structure Config (ι S L : Type*) where
  shared : S
  procs : ι → L

variable {ι S L A E : Type*} [DecidableEq ι]

def System.step (M : System ι S L A E) (c : Config ι S L) : Label ι A E → Option (Config ι S L)
  | .act i a => (M.act i a c.shared (c.procs i)).map
      fun r => ⟨r.1, Function.update c.procs i r.2⟩
  | .env e => (M.env e c.shared).map fun s => ⟨s, c.procs⟩

def System.run (M : System ι S L A E) (c : Config ι S L) : List (Label ι A E) → Option (Config ι S L)
  | [] => some c
  | l :: ls => (M.step c l).bind fun c' => M.run c' ls

theorem System.run_append {M : System ι S L A E} {c : Config ι S L} (ls ls' : List (Label ι A E)) :
    M.run c (ls ++ ls') = (M.run c ls).bind fun c' => M.run c' ls' := by
  induction ls generalizing c with
  | nil => rfl
  | cons l ls ih =>
    simp only [List.cons_append, System.run, Option.bind_assoc]
    exact congrArg _ (funext fun c' => ih)

/-- A run, each step of which is checked where it is taken. -/
def System.runWhere (M : System ι S L A E) (check : Config ι S L → Label ι A E → Bool) (c : Config ι S L) :
    List (Label ι A E) → Option (Config ι S L)
  | [] => some c
  | l :: ls => if check c l then (M.step c l).bind fun c' => M.runWhere check c' ls else none

/-- Whether a run can be continued through these stages, and each ends where its check holds. -/
def System.passes (M : System ι S L A E) (c : Config ι S L) :
    List (List (Label ι A E) × (Config ι S L → Bool)) → Bool
  | [] => true
  | (ls, check) :: stages => match M.run c ls with
    | none => false
    | some c' => check c' && M.passes c' stages

theorem System.passes_cons {M : System ι S L A E} {c : Config ι S L} {ls : List (Label ι A E)}
    {check : Config ι S L → Bool} {stages : List (List (Label ι A E) × (Config ι S L → Bool))}
    (h : M.passes c ((ls, check) :: stages) = true) :
    ∃ c', M.run c ls = some c' ∧ check c' = true ∧ M.passes c' stages = true := by
  unfold passes at h
  split at h
  · contradiction
  · obtain ⟨hcheck, hrest⟩ := Bool.and_eq_true_iff.mp h
    exact ⟨_, ‹_›, hcheck, hrest⟩

/-- Two stages are one whose end is the second's. -/
theorem System.passes_join {M : System ι S L A E} {c : Config ι S L} {ls ls' : List (Label ι A E)}
    {check check' : Config ι S L → Bool} {stages : List (List (Label ι A E) × (Config ι S L → Bool))}
    (h : M.passes c ((ls, check) :: (ls', check') :: stages) = true) :
    M.passes c ((ls ++ ls', check') :: stages) = true := by
  obtain ⟨c₁, hc₁, -, h⟩ := passes_cons h
  obtain ⟨c₂, hc₂, hcheck, h⟩ := passes_cons h
  have hrun : M.run c (ls ++ ls') = some c₂ := by rw [run_append, hc₁, Option.bind_some, hc₂]
  simp only [passes, hrun, hcheck, h, Bool.and_self]

/-- The configurations that steps allowed by `ok` reach from `c₀`. -/
inductive Reachable (M : System ι S L A E) (ok : S → Label ι A E → Prop) (c₀ : Config ι S L) :
    Config ι S L → Prop
  | refl : Reachable M ok c₀ c₀
  | step {c c' : Config ι S L} {l : Label ι A E} (h : Reachable M ok c₀ c) (hok : ok c.shared l)
      (hs : M.step c l = some c') : Reachable M ok c₀ c'

section Runs
variable {M : System ι S L A E} {ok ok' : S → Label ι A E → Prop} {c₀ c c' : Config ι S L}

theorem Reachable.mono (h : Reachable M ok c₀ c) (hle : ∀ s l, ok s l → ok' s l) :
    Reachable M ok' c₀ c := by
  induction h with
  | refl => exact .refl
  | step _ hok hs ih => exact .step ih (hle _ _ hok) hs

theorem Reachable.trans (h : Reachable M ok c₀ c) (h' : Reachable M ok c c') :
    Reachable M ok c₀ c' := by
  induction h' with
  | refl => exact h
  | step _ hok hs ih => exact .step ih hok hs

theorem reachable_of_run {ls : List (Label ι A E)} (hok : ∀ s, ∀ l ∈ ls, ok s l)
    (h : M.run c ls = some c') : Reachable M ok c c' := by
  induction ls generalizing c with
  | nil =>
    obtain rfl : c = c' := by simpa only [System.run, Option.some.injEq] using h
    exact .refl
  | cons l ls ih =>
    obtain ⟨d, hd, hrest⟩ := Option.bind_eq_some_iff.mp h
    have hrest := ih (fun s l hl => hok s l (List.mem_cons_of_mem _ hl)) hrest
    exact (Reachable.step .refl (hok _ _ List.mem_cons_self) hd).trans hrest

/-- The steps of all but `i`. -/
def Elsewhere (ok : S → Label ι A E → Prop) (i : ι) (s : S) (l : Label ι A E) : Prop :=
  ok s l ∧ ∀ a, l ≠ .act i a

/-- The others leave a process where it stands. -/
theorem Reachable.procs_eq {i : ι} (h : Reachable M (Elsewhere ok i) c c') : c'.procs i = c.procs i := by
  induction h with
  | refl => rfl
  | @step d d' l _ hok hs ih =>
    cases l with
    | act j a =>
      have hne : i ≠ j := fun hij => hok.2 a (hij ▸ rfl)
      obtain ⟨r, -, rfl⟩ := Option.map_eq_some_iff.mp hs
      simpa only [Function.update_of_ne hne] using ih
    | env e =>
      obtain ⟨s, -, rfl⟩ := Option.map_eq_some_iff.mp hs
      exact ih

/-- `Q` holds once `i` has taken these actions, whatever the others do before each. -/
def After (M : System ι S L A E) (ok : S → Label ι A E → Prop) (i : ι) (Q : Config ι S L → Prop) :
    List A → Config ι S L → Prop
  | [], c => Q c
  | a :: as, c => ∀ c₁ c₂, Reachable M (Elsewhere ok i) c c₁ → M.step c₁ (.act i a) = some c₂ →
      After M ok i Q as c₂

/-- A run from `c₀` with the turns of `i` in it, the latest first: where each was taken, and its action. -/
inductive Turns (M : System ι S L A E) (ok : S → Label ι A E → Prop) (i : ι) (c₀ : Config ι S L) :
    List (Config ι S L × A) → Config ι S L → Prop
  | start : Turns M ok i c₀ [] c₀
  | other {turns : List (Config ι S L × A)} {c c' : Config ι S L} {l : Label ι A E}
      (h : Turns M ok i c₀ turns c) (hok : Elsewhere ok i c.shared l) (hs : M.step c l = some c') :
      Turns M ok i c₀ turns c'
  | own {turns : List (Config ι S L × A)} {c c' : Config ι S L} {a : A} (h : Turns M ok i c₀ turns c)
      (hok : ok c.shared (.act i a)) (hs : M.step c (.act i a) = some c') : Turns M ok i c₀ ((c, a) :: turns) c'

theorem Turns.reachable {i : ι} {turns : List (Config ι S L × A)} (h : Turns M ok i c₀ turns c) :
    Reachable M ok c₀ c := by
  induction h with
  | start => exact .refl
  | other _ hok hs ih => exact .step ih hok.1 hs
  | own _ hok hs ih => exact .step ih hok hs

/-- The turns of a run that `i` has to itself. -/
theorem turns_of_run {i : ι} {as : List A} (hok : ∀ s a, ok s (.act i a)) (h : M.run c (as.map (.act i)) = some c') :
    ∃ turns, Turns M ok i c turns c' ∧ turns.map Prod.snd = as.reverse := by
  induction as using List.reverseRecOn generalizing c' with
  | nil =>
    obtain rfl : c = c' := by simpa only [List.map_nil, System.run, Option.some.injEq] using h
    exact ⟨[], .start, rfl⟩
  | append_singleton as a ih =>
    rw [List.map_append, System.run_append] at h
    obtain ⟨d, hd, hlast⟩ := Option.bind_eq_some_iff.mp h
    obtain ⟨turns, hturns, hactions⟩ := ih hd
    obtain ⟨d', hs, hd'⟩ := Option.bind_eq_some_iff.mp hlast
    obtain rfl : d' = c' := Option.some.inj hd'
    refine ⟨(d, a) :: turns, .own hturns (hok _ a) hs, ?_⟩
    rw [List.map_cons, hactions, List.reverse_append, List.reverse_singleton, List.singleton_append]

/-- What holds of the turns of `i` and of where it stands, and survives its next turn. -/
theorem Turns.invariant {i : ι} {turns : List (Config ι S L × A)} (P : List (Config ι S L × A) → L → Prop)
    (hinit : P [] (c₀.procs i))
    (hstep : ∀ turns c c' a, Reachable M ok c₀ c → P turns (c.procs i) → ok c.shared (.act i a) →
      M.step c (.act i a) = some c' → P ((c, a) :: turns) (c'.procs i))
    (h : Turns M ok i c₀ turns c) : P turns (c.procs i) := by
  induction h with
  | start => exact hinit
  | other _ hok hs ih => rwa [(Reachable.step .refl hok hs).procs_eq]
  | own h hok hs ih => exact hstep _ _ _ _ h.reachable ih hok hs

/-- The configurations that steps reach from `c₀`, each allowed where the processes stand. -/
inductive Path (M : System ι S L A E) (ok : Config ι S L → Label ι A E → Prop) (c₀ : Config ι S L) :
    Config ι S L → Prop
  | refl : Path M ok c₀ c₀
  | step {c c' : Config ι S L} {l : Label ι A E} (h : Path M ok c₀ c) (hok : ok c l)
      (hs : M.step c l = some c') : Path M ok c₀ c'

theorem Path.reachable {allowed : Config ι S L → Label ι A E → Prop} (h : Path M allowed c₀ c) :
    Reachable M (fun _ _ => True) c₀ c := by
  induction h with
  | refl => exact .refl
  | step _ _ hs ih => exact .step ih trivial hs

theorem Path.trans {allowed : Config ι S L → Label ι A E → Prop} (h : Path M allowed c₀ c)
    (h' : Path M allowed c c') : Path M allowed c₀ c' := by
  induction h' with
  | refl => exact h
  | step _ hok hs ih => exact .step ih hok hs

theorem run_of_runWhere {check : Config ι S L → Label ι A E → Bool} {ls : List (Label ι A E)}
    (h : M.runWhere check c ls = some c') : M.run c ls = some c' := by
  induction ls generalizing c with
  | nil => exact h
  | cons l ls ih =>
    obtain ⟨-, h⟩ := Option.ite_none_right_eq_some.mp h
    obtain ⟨d, hd, hrest⟩ := Option.bind_eq_some_iff.mp h
    exact Option.bind_eq_some_iff.mpr ⟨d, hd, ih hrest⟩

theorem path_of_runWhere {allowed : Config ι S L → Label ι A E → Prop} {check : Config ι S L → Label ι A E → Bool}
    {ls : List (Label ι A E)} (hcheck : ∀ c l, check c l = true → allowed c l)
    (h : M.runWhere check c ls = some c') : Path M allowed c c' := by
  induction ls generalizing c with
  | nil =>
    obtain rfl : c = c' := Option.some.inj h
    exact .refl
  | cons l ls ih =>
    obtain ⟨hl, h⟩ := Option.ite_none_right_eq_some.mp h
    obtain ⟨d, hd, hrest⟩ := Option.bind_eq_some_iff.mp h
    exact (Path.step .refl (hcheck c l hl) hd).trans (ih hrest)

theorem Path.invariant {allowed : Config ι S L → Label ι A E → Prop} (P : Config ι S L → Prop) (hinit : P c₀)
    (hstep : ∀ c c' l, Path M allowed c₀ c → P c → allowed c l → M.step c l = some c' → P c')
    (h : Path M allowed c₀ c) : P c := by
  induction h with
  | refl => exact hinit
  | step hr hok hs ih => exact hstep _ _ _ hr ih hok hs

/-- What holds at the start and survives every allowed step holds in every reachable
configuration. -/
theorem Reachable.invariant (P : Config ι S L → Prop) (hinit : P c₀)
    (hstep : ∀ c c' l, Reachable M ok c₀ c → P c → ok c.shared l → M.step c l = some c' → P c')
    (h : Reachable M ok c₀ c) : P c := by
  induction h with
  | refl => exact hinit
  | step hr hok hs ih => exact hstep _ _ _ hr ih hok hs

end Runs

/-- An invariant of the shared state, an assertion for each process, and what a process promises
the others about each of its steps. -/
structure Contract (ι S L : Type*) where
  inv : S → Prop
  assert : ι → L → S → Prop
  guarantee : ι → S → S → Prop

def Contract.Holds (C : Contract ι S L) (c : Config ι S L) : Prop :=
  C.inv c.shared ∧ ∀ i, C.assert i (c.procs i) c.shared

/-- Nothing is known and nothing is promised. -/
def Contract.trivial : Contract ι S L := ⟨fun _ => True, fun _ _ _ => True, fun _ _ _ => True⟩

/-- Both contracts at once. -/
def Contract.both (C D : Contract ι S L) : Contract ι S L where
  inv := fun s => C.inv s ∧ D.inv s
  assert := fun i l s => C.assert i l s ∧ D.assert i l s
  guarantee := fun i s s' => C.guarantee i s s' ∧ D.guarantee i s s'

/-- A contract holds in every reachable configuration and each step from one keeps its promise. -/
structure Contract.Established (C : Contract ι S L) (M : System ι S L A E)
    (ok : S → Label ι A E → Prop) (c₀ : Config ι S L) : Prop where
  holds : ∀ c, Reachable M ok c₀ c → C.Holds c
  guaranteed : ∀ c i a s' l', Reachable M ok c₀ c → ok c.shared (.act i a) →
    M.act i a c.shared (c.procs i) = some (s', l') → C.guarantee i c.shared s'

/-- The proof obligations of a contract over one that is established already. -/
structure Contract.Proof (C base : Contract ι S L) (M : System ι S L A E)
    (ok : S → Label ι A E → Prop) : Prop where
  act : ∀ i a s l s' l', ok s (.act i a) → M.act i a s l = some (s', l') →
    base.inv s → base.assert i l s → base.guarantee i s s' → C.inv s → C.assert i l s →
    C.inv s' ∧ C.assert i l' s' ∧ C.guarantee i s s'
  stable : ∀ i j l s s', i ≠ j → base.inv s → base.assert j l s → base.guarantee i s s' →
    C.guarantee i s s' → C.inv s → C.assert j l s → C.assert j l s'
  env : ∀ e s s', ok s (.env e) → M.env e s = some s' → base.inv s → C.inv s →
    C.inv s' ∧ ∀ i l, base.assert i l s → C.assert i l s → C.assert i l s'

section RelyGuarantee
variable {M : System ι S L A E} {ok : S → Label ι A E → Prop} {c₀ c c' : Config ι S L}
  {C base : Contract ι S L}

theorem Contract.trivial_established : (Contract.trivial : Contract ι S L).Established M ok c₀ :=
  ⟨fun _ _ => ⟨True.intro, fun _ => True.intro⟩, fun _ _ _ _ _ _ _ _ => True.intro⟩

theorem Contract.Proof.step (hC : C.Proof base M ok) (hbase : base.Established M ok c₀)
    (hr : Reachable M ok c₀ c) {l : Label ι A E} (hok : ok c.shared l)
    (hs : M.step c l = some c') (h : C.Holds c) : C.Holds c' := by
  have hB := hbase.holds c hr
  cases l with
  | act i a =>
    obtain ⟨⟨s', l'⟩, ha, rfl⟩ := Option.map_eq_some_iff.mp hs
    have hG₀ := hbase.guaranteed c i a s' l' hr hok ha
    obtain ⟨hinv, hown, hG⟩ := hC.act i a _ _ s' l' hok ha hB.1 (hB.2 i) hG₀ h.1 (h.2 i)
    refine ⟨hinv, fun j => ?_⟩
    by_cases hji : j = i
    · subst hji
      simpa only [Function.update_self] using hown
    · simp only [Function.update_of_ne hji]
      exact hC.stable i j _ _ _ (Ne.symm hji) hB.1 (hB.2 j) hG₀ hG h.1 (h.2 j)
  | env e =>
    obtain ⟨s', he, rfl⟩ := Option.map_eq_some_iff.mp hs
    obtain ⟨hinv, hall⟩ := hC.env e _ s' hok he hB.1 h.1
    exact ⟨hinv, fun i => hall i _ (hB.2 i) (h.2 i)⟩

/-- A proved contract is established, together with the one below it. -/
theorem Contract.Proof.established (hC : C.Proof base M ok) (hbase : base.Established M ok c₀)
    (hinit : C.Holds c₀) : (C.both base).Established M ok c₀ := by
  have hholds : ∀ c, Reachable M ok c₀ c → C.Holds c := fun c hr =>
    hr.invariant C.Holds hinit fun d _ _ hd h hok hs => hC.step hbase hd hok hs h
  refine ⟨fun c hr => ?_, fun c i a s' l' hr hok ha => ?_⟩
  · have h := hholds c hr
    have hB := hbase.holds c hr
    exact ⟨⟨h.1, hB.1⟩, fun i => ⟨h.2 i, hB.2 i⟩⟩
  · have h := hholds c hr
    have hB := hbase.holds c hr
    have hG₀ := hbase.guaranteed c i a s' l' hr hok ha
    exact ⟨(hC.act i a _ _ s' l' hok ha hB.1 (hB.2 i) hG₀ h.1 (h.2 i)).2.2, hG₀⟩

theorem Contract.Established.both {D : Contract ι S L} (h : C.Established M ok c₀)
    (h' : D.Established M ok c₀) : (C.both D).Established M ok c₀ where
  holds := fun c hr => ⟨⟨(h.holds c hr).1, (h'.holds c hr).1⟩,
    fun i => ⟨(h.holds c hr).2 i, (h'.holds c hr).2 i⟩⟩
  guaranteed := fun c i a s' l' hr hok ha =>
    ⟨h.guaranteed c i a s' l' hr hok ha, h'.guaranteed c i a s' l' hr hok ha⟩

theorem Contract.Established.left {D : Contract ι S L} (h : (C.both D).Established M ok c₀) :
    C.Established M ok c₀ where
  holds := fun c hr => ⟨(h.holds c hr).1.1, fun i => ((h.holds c hr).2 i).1⟩
  guaranteed := fun c i a s' l' hr hok ha => (h.guaranteed c i a s' l' hr hok ha).1

/-- Fewer steps reach fewer configurations. -/
theorem Contract.Established.mono {ok' : S → Label ι A E → Prop} (h : C.Established M ok' c₀)
    (hle : ∀ s l, ok s l → ok' s l) : C.Established M ok c₀ where
  holds := fun c hr => h.holds c (hr.mono hle)
  guaranteed := fun c i a s' l' hr hok ha => h.guaranteed c i a s' l' (hr.mono hle) (hle _ _ hok) ha

end RelyGuarantee

end Interleaving
