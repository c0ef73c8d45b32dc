import Mathlib.Data.List.Basic

/-! Traces, the latest event first: what has happened since an event, and traces each of whose events is
justified by those before it. -/
namespace Trace

variable {E : Type*}

/-- There was an event of `P`, before it `Q` held, and since then there have been only events of `skip`. -/
def Since (skip P : E → Prop) (Q : List E → Prop) (trace : List E) : Prop :=
  ∃ newer event older, trace = newer ++ event :: older ∧ (∀ e ∈ newer, skip e) ∧ P event ∧ Q older

/-- `J` holds of every event and of those before it. -/
def Justified (J : E → List E → Prop) : List E → Prop
  | [] => True
  | event :: earlier => J event earlier ∧ Justified J earlier

section Rules
variable {skip P : E → Prop} {Q : List E → Prop} {J : E → List E → Prop} {trace : List E} {event : E}

theorem Since.now (h : P event) (hq : Q trace) : Since skip P Q (event :: trace) :=
  ⟨[], event, trace, rfl, fun _ he => absurd he List.not_mem_nil, h, hq⟩

theorem Since.cons (h : Since skip P Q trace) (he : skip event) : Since skip P Q (event :: trace) := by
  obtain ⟨newer, e, older, rfl, hskip, hrest⟩ := h
  refine ⟨event :: newer, e, older, rfl, fun e' he' => ?_, hrest⟩
  rcases List.mem_cons.mp he' with rfl | he'
  · exact he
  · exact hskip e' he'

theorem Since.append {l : List E} (h : Since skip P Q trace) (he : ∀ e ∈ l, skip e) :
    Since skip P Q (l ++ trace) := by
  induction l with
  | nil => exact h
  | cons e l ih =>
    have hrest := ih fun e' he' => he e' (List.mem_cons_of_mem _ he')
    exact hrest.cons (he e List.mem_cons_self)

/-- A justified trace is justified at each of its events. -/
theorem Justified.at {later earlier : List E} (h : Justified J (later ++ event :: earlier)) : J event earlier := by
  induction later with
  | nil => exact h.1
  | cons e later ih => exact ih h.2

theorem Justified.append {events : List E} (h : Justified J trace)
    (he : ∀ e ∈ events, ∀ earlier, J e earlier) : Justified J (events ++ trace) := by
  induction events with
  | nil => exact h
  | cons e events ih =>
    exact ⟨he e List.mem_cons_self _, ih fun e' he' => he e' (List.mem_cons_of_mem _ he')⟩

end Rules
end Trace
