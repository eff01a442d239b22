import Mathlib.Data.List.Basic

/-!
# Runs of a partial step function

A system is given by a function `step : S → E → Option S`; an event that is not
possible in a state has no successor.  `exec` takes a list of events in order,
and `AllSteps step Q s es` says that each event of the run meets `Q` in the state
it is taken in.  The second notion is what a *conditional* invariant needs: the
condition on an event may depend on the state that the earlier events produced.

`Along step P s es` says that `P` holds in every state of the run.  The rules that the
rest of the development uses are

* `AllSteps.inv` — a property preserved by every step that meets `Q` holds
  wherever the run goes;
* `AllSteps.exec_inv` — if no step that meets `Q` gets stuck, the whole run is defined,
  and ends in the invariant;
* `AllSteps.congr` — two conditions that agree under the invariant agree on runs;
* `along_iff` — a property of the states of a run is one of its steps.
-/

namespace Illinix.Base

universe u v

variable {S : Type u} {E : Type v} {step : S → E → Option S}

/-- The state reached by a list of events, taken in order. -/
def exec (step : S → E → Option S) : S → List E → Option S
  | s, [] => some s
  | s, e :: es => (step s e).bind fun s' ↦ exec step s' es

theorem exec_cons (s : S) (e : E) (es : List E) :
    exec step s (e :: es) = (step s e).bind fun s' ↦ exec step s' es := rfl

theorem exec_cons_eq_some {s s'' : S} {e : E} {es : List E} :
    exec step s (e :: es) = some s'' ↔
      ∃ s', step s e = some s' ∧ exec step s' es = some s'' := by
  rw [exec_cons, Option.bind_eq_some_iff]

/-- Every event of the run from `s` meets `Q` in the state it is taken in. -/
def AllSteps (step : S → E → Option S) (Q : S → E → Prop) : S → List E → Prop
  | _, [] => True
  | s, e :: es => Q s e ∧ ∀ s', step s e = some s' → AllSteps step Q s' es

theorem allSteps_cons_iff {Q : S → E → Prop} {s s' : S} {e : E} (h : step s e = some s')
    (es : List E) : AllSteps step Q s (e :: es) ↔ Q s e ∧ AllSteps step Q s' es := by
  refine and_congr_right fun _ ↦ ⟨fun hrest ↦ hrest s' h, fun hs' s'' hs'' ↦ ?_⟩
  rw [h] at hs''
  cases hs''
  exact hs'

namespace AllSteps

variable {Q R : S → E → Prop} {Inv : S → Prop}

theorem mono (h : ∀ s e, Q s e → R s e) {s : S} {es : List E}
    (hq : AllSteps step Q s es) : AllSteps step R s es := by
  induction es generalizing s with
  | nil => trivial
  | cons e es ih => exact ⟨h s e hq.1, fun s' hs' ↦ ih (hq.2 s' hs')⟩

theorem and {s : S} {es : List E} (hq : AllSteps step Q s es) (hr : AllSteps step R s es) :
    AllSteps step (fun s e ↦ Q s e ∧ R s e) s es := by
  induction es generalizing s with
  | nil => trivial
  | cons e es ih => exact ⟨⟨hq.1, hr.1⟩, fun s' hs' ↦ ih (hq.2 s' hs') (hr.2 s' hs')⟩

/-- **Invariant rule.**  A property that holds at the start and is preserved by
every step meeting `Q` is available at each step of a run that meets `Q`. -/
theorem inv (hstep : ∀ s e s', Inv s → Q s e → step s e = some s' → Inv s')
    {s : S} {es : List E} (h₀ : Inv s) (hq : AllSteps step Q s es) :
    AllSteps step (fun s e ↦ Inv s ∧ Q s e) s es := by
  induction es generalizing s with
  | nil => trivial
  | cons e es ih =>
      exact ⟨⟨h₀, hq.1⟩, fun s' hs' ↦ ih (hstep s e s' h₀ hq.1 hs') (hq.2 s' hs')⟩

/-- A run whose steps meet `Q` is defined if no such step gets stuck, and it keeps the
invariant. -/
theorem exec_inv (hstep : ∀ s e, Inv s → Q s e → ∃ s', step s e = some s' ∧ Inv s')
    {s : S} {es : List E} (h₀ : Inv s) (hq : AllSteps step Q s es) :
    ∃ s', exec step s es = some s' ∧ Inv s' := by
  induction es generalizing s with
  | nil => exact ⟨s, rfl, h₀⟩
  | cons e es ih =>
      obtain ⟨s₁, hs₁, h₁⟩ := hstep s e h₀ hq.1
      obtain ⟨s', hs', h'⟩ := ih h₁ (hq.2 s₁ hs₁)
      exact ⟨s', exec_cons_eq_some.mpr ⟨s₁, hs₁, hs'⟩, h'⟩

/-- Two step conditions that agree under an invariant, where the steps that meet
them preserve the invariant, select the same runs. -/
theorem congr (Inv : S → Prop) (hstep : ∀ s e s', Inv s → Q s e → step s e = some s' → Inv s')
    (hiff : ∀ s e, Inv s → (Q s e ↔ R s e)) {s : S} {es : List E} (h₀ : Inv s) :
    AllSteps step Q s es ↔ AllSteps step R s es := by
  induction es generalizing s with
  | nil => exact Iff.rfl
  | cons e es ih =>
      constructor
      · rintro ⟨hq, hrest⟩
        refine ⟨(hiff s e h₀).mp hq, fun s' hs' ↦ ?_⟩
        exact (ih (hstep s e s' h₀ hq hs')).mp (hrest s' hs')
      · rintro ⟨hr, hrest⟩
        have hq := (hiff s e h₀).mpr hr
        exact ⟨hq, fun s' hs' ↦ (ih (hstep s e s' h₀ hq hs')).mpr (hrest s' hs')⟩

end AllSteps

/-- The property holds in the state before the run and after each of its events. -/
def Along (step : S → E → Option S) (P : S → Prop) (s : S) (es : List E) : Prop :=
  ∀ es' s', es' <+: es → exec step s es' = some s' → P s'

theorem along_iff {P : S → Prop} {s : S} {es : List E} :
    Along step P s es ↔ P s ∧ AllSteps step (fun s e ↦ ∀ s', step s e = some s' → P s') s es := by
  induction es generalizing s with
  | nil =>
      refine ⟨fun h ↦ ⟨h [] s List.nil_prefix rfl, trivial⟩, ?_⟩
      rintro ⟨h, -⟩ es' s' hpre hexec
      rw [List.prefix_nil.mp hpre] at hexec
      exact Option.some.inj hexec ▸ h
  | cons e es ih =>
      constructor
      · intro h
        refine ⟨h [] s List.nil_prefix rfl, fun s' hs' ↦ ?_, fun s' hs' ↦ ?_⟩
        · exact h [e] s' (List.cons_prefix_cons.mpr ⟨rfl, List.nil_prefix⟩)
            (exec_cons_eq_some.mpr ⟨s', hs', rfl⟩)
        · refine (ih.mp fun es' s'' hpre hexec ↦ ?_).2
          exact h (e :: es') s'' (List.cons_prefix_cons.mpr ⟨rfl, hpre⟩)
            (exec_cons_eq_some.mpr ⟨s', hs', hexec⟩)
      · rintro ⟨h, hpost, hrest⟩ es' s' hpre hexec
        rcases List.prefix_cons_iff.mp hpre with rfl | ⟨es'', rfl, htail⟩
        · exact Option.some.inj hexec ▸ h
        · obtain ⟨s₁, hs₁, hexec⟩ := exec_cons_eq_some.mp hexec
          exact ih.mpr ⟨hpost s₁ hs₁, hrest s₁ hs₁⟩ es'' s' htail hexec

/-- A property that holds at the start and is preserved by every step that meets `Q`. -/
theorem AllSteps.along {Q : S → E → Prop} (Inv : S → Prop)
    (hstep : ∀ s e s', Inv s → Q s e → step s e = some s' → Inv s') {s : S} {es : List E}
    (h₀ : Inv s) (hq : AllSteps step Q s es) : Along step Inv s es :=
  along_iff.mpr ⟨h₀, (AllSteps.inv hstep h₀ hq).mono fun s e h s' hs' ↦ hstep s e s' h.1 h.2 hs'⟩

/-- `AllSteps` as a computation, for a condition that can be checked. -/
def checkSteps (step : S → E → Option S) (q : S → E → Bool) : S → List E → Bool
  | _, [] => true
  | s, e :: es => q s e && (step s e).all fun s' ↦ checkSteps step q s' es

theorem AllSteps.of_checkSteps {Q : S → E → Prop} {q : S → E → Bool}
    (hq : ∀ s e, q s e = true → Q s e) {s : S} {es : List E}
    (h : checkSteps step q s es = true) : AllSteps step Q s es := by
  induction es generalizing s with
  | nil => trivial
  | cons e es ih =>
      rw [checkSteps, Bool.and_eq_true] at h
      refine ⟨hq s e h.1, fun s' hs' ↦ ih ?_⟩
      have hall := h.2
      rwa [hs', Option.all_some] at hall

/-- A decidable condition is checked by evaluation. -/
theorem AllSteps.of_decide {Q : S → E → Prop} [∀ s e, Decidable (Q s e)] {s : S} {es : List E}
    (h : checkSteps step (fun s e ↦ decide (Q s e)) s es = true) : AllSteps step Q s es :=
  AllSteps.of_checkSteps (fun _ _ ↦ of_decide_eq_true) h

end Illinix.Base
