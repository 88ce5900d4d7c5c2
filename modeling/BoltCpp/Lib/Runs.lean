/-
BoltCpp/Lib/Runs.lean

Runs of a deterministic system: a list of events folded over a state.

`invariant` is the induction over a run.  `always_iff` is for properties that
some steps break: if, from a state that has the property, a step keeps it
exactly under a condition, then a run never loses the property exactly when
every one of its steps meets the condition in the state it is taken in.
-/

namespace Runs

universe u v

variable {σ : Type u} {ε : Type v} {step : σ → ε → σ}

/-- What every step preserves, a run preserves. -/
theorem invariant {I : σ → Prop} (hstep : ∀ s e, I s → I (step s e)) (es : List ε) :
    ∀ {s : σ}, I s → I (es.foldl step s) := by
  induction es with
  | nil => exact fun hs => hs
  | cons e es ih => exact fun hs => ih (hstep _ e hs)

variable (step)

/-- `P` holds before and after every step of the run. -/
def Always (P : σ → Prop) (s : σ) (es : List ε) : Prop :=
  ∀ k, P ((es.take k).foldl step s)

/-- Every step of the run meets the condition `C` in the state it is taken
in. -/
def Meets (C : σ → ε → Prop) (s : σ) (es : List ε) : Prop :=
  ∀ k e, es[k]? = some e → C ((es.take k).foldl step s) e

variable {step}

theorem always_cons {P : σ → Prop} {s : σ} {e : ε} {es : List ε} :
    Always step P s (e :: es) ↔ P s ∧ Always step P (step s e) es := by
  refine ⟨fun h => ⟨h 0, fun k => h (k + 1)⟩, fun h k => ?_⟩
  cases k with
  | zero => exact h.1
  | succ k => exact h.2 k

theorem meets_cons {C : σ → ε → Prop} {s : σ} {e : ε} {es : List ε} :
    Meets step C s (e :: es) ↔ C s e ∧ Meets step C (step s e) es := by
  refine ⟨fun h => ⟨h 0 e rfl, fun k => h (k + 1)⟩, fun h k e' he => ?_⟩
  cases k with
  | zero =>
      obtain rfl := Option.some.inj he
      exact h.1
  | succ k => exact h.2 k e' he

/-- A condition that does not look at the state is one on the events. -/
theorem meets_const_iff {C : ε → Prop} {s : σ} {es : List ε} :
    Meets step (fun _ e => C e) s es ↔ ∀ e ∈ es, C e :=
  ⟨fun h _ he => (List.mem_iff_getElem?.mp he).elim fun k hk => h k _ hk,
    fun h _ _ he => h _ (List.mem_of_getElem? he)⟩

/-- **A run keeps a property exactly when its steps meet the condition.** -/
theorem always_iff {I P : σ → Prop} {C : σ → ε → Prop} (hI : ∀ s e, I s → I (step s e))
    (hstep : ∀ s e, I s → P s → (P (step s e) ↔ C s e)) (es : List ε) :
    ∀ {s : σ}, I s → P s → (Always step P s es ↔ Meets step C s es) := by
  induction es with
  | nil =>
      intro s _ hP
      refine ⟨fun _ _ _ h => (by cases h), fun _ k => ?_⟩
      rw [List.take_nil]
      exact hP
  | cons e es ih =>
      intro s hs hP
      rw [always_cons, meets_cons]
      constructor
      · rintro ⟨-, h⟩
        -- the state after the first step is the first one of the rest
        have hfirst : P (step s e) := h 0
        exact ⟨(hstep s e hs hP).mp hfirst, (ih (hI s e hs) hfirst).mp h⟩
      · rintro ⟨hC, h⟩
        have hfirst : P (step s e) := (hstep s e hs hP).mpr hC
        exact ⟨hP, (ih (hI s e hs) hfirst).mpr h⟩

end Runs
