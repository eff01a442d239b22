import Mathlib.Data.List.Basic
import Mathlib.Logic.Function.Basic
import Mathlib.Tactic.Common

/-!
# Critical sections on one processor

Threads share one processor and a state.  A thread turns interrupts off, acts on the shared state
and on variables of its own, and turns interrupts on again.  While they are on, an interrupt may
come in front of any statement; its handler acts on the shared state, and another thread may go on
behind it.

`Run` is a run with the interrupts that came in it.  `Run.serial` says that all the shared state
shows is a history: whole calls of the threads and whole handlers, one after another, in which the
handlers are those of the run and every thread's calls are in the order of its code.  `Run.settles`
says the same of every state from where the current section has ended.
-/

namespace Illinix.Base

/-- A statement of a thread. -/
inductive Stmt (σ l : Type*)
  | cli
  | sti
  | act (f : σ × l → σ × l)

/-- The shared state, the interrupt flag, and the threads with what is left of their code. -/
structure Threads (ι σ l : Type*) where
  shared : σ
  enabled : Bool
  current : ι
  vars : ι → l
  code : ι → List (Stmt σ l)

variable {ι σ l E C α : Type*} {onEvent : E → α → α} {onCall : C → α → α} {h : List (E ⊕ ι × C)}

/-- A body with interrupts off. -/
def critical (body : List (σ × l → σ × l)) : List (Stmt σ l) :=
  .cli :: (body.map .act ++ [.sti])

/-- The actions of a body, one after another. -/
def runBody (body : List (σ × l → σ × l)) (x : σ × l) : σ × l := body.foldl (fun x f ↦ f x) x

/-- The calls of a history. -/
def order (h : List (E ⊕ ι × C)) : List (ι × C) := h.filterMap Sum.getRight?

/-- The events of a history. -/
def events (h : List (E ⊕ ι × C)) : List E := h.filterMap Sum.getLeft?

theorem events_event (e : E) : events (h ++ [.inl e]) = events h ++ [e] := List.filterMap_append

theorem events_call (x : ι × C) : events (h ++ [.inr x]) = events h := by
  rw [events, List.filterMap_append]
  exact List.append_nil _

/-- What a history does to what is seen of the state. -/
def replay (onEvent : E → α → α) (onCall : C → α → α) (h : List (E ⊕ ι × C)) (a : α) : α :=
  h.foldl (fun a x ↦ match x with
    | .inl e => onEvent e a
    | .inr (_, c) => onCall c a) a

theorem replay_event (e : E) (a : α) :
    replay onEvent onCall (h ++ [.inl e]) a = onEvent e (replay onEvent onCall h a) := by
  rw [replay, List.foldl_append]
  rfl

theorem replay_call (i : ι) (c : C) (a : α) :
    replay onEvent onCall (h ++ [.inr (i, c)]) a = onCall c (replay onEvent onCall h a) := by
  rw [replay, List.foldl_append]
  rfl

/-- Events that nothing is seen of. -/
theorem replay_quiet (h : List (E ⊕ ι × C)) (a : α) :
    replay (fun _ a ↦ a) onCall h a = (order h).foldl (fun a x ↦ onCall x.2 a) a := by
  induction h generalizing a with
  | nil => rfl
  | cons x h ih =>
      cases x with
      | inl e => exact ih a
      | inr x => exact ih (onCall x.2 a)

variable [DecidableEq ι]

namespace Threads

/-- The current thread executes a statement, with `rest` behind it. -/
def exec (s : Threads ι σ l) (rest : List (Stmt σ l)) (st : Stmt σ l) : Threads ι σ l :=
  let s' := { s with code := Function.update s.code s.current rest }
  match st with
  | .cli => { s' with enabled := false }
  | .sti => { s' with enabled := true }
  | .act f =>
      let x := f (s.shared, s.vars s.current)
      { s' with shared := x.1, vars := Function.update s.vars s.current x.2 }

/-- The current thread executes some statements, with no interrupt. -/
def advance : Nat → Threads ι σ l → Threads ι σ l
  | 0, s => s
  | n + 1, s =>
      match s.code s.current with
      | [] => s
      | st :: rest => advance n (s.exec rest st)

/-- A statement, or an interrupt that `next` goes on from. -/
inductive Step (handler : E → σ → σ) : Threads ι σ l → Option E → Threads ι σ l → Prop
  | stmt {s : Threads ι σ l} {st : Stmt σ l} {rest : List (Stmt σ l)}
      (hcode : s.code s.current = st :: rest) : Step handler s none (s.exec rest st)
  | interrupt {s : Threads ι σ l} (henabled : s.enabled = true) (e : E) (next : ι) :
      Step handler s (some e) { s with shared := handler e s.shared, current := next }

/-- Steps, one after another, and the interrupts among them. -/
inductive Run (handler : E → σ → σ) (s : Threads ι σ l) : List E → Threads ι σ l → Prop
  | refl : Run handler s [] s
  | tail {es : List E} {e : Option E} {s' s'' : Threads ι σ l} (hrun : Run handler s es s')
      (hstep : Step handler s' e s'') : Run handler s (es ++ e.toList) s''

def Reaches (handler : E → σ → σ) (s s' : Threads ι σ l) : Prop := ∃ es, Run handler s es s'

namespace Run

variable {handler : E → σ → σ} {s s' s'' : Threads ι σ l} {es es' : List E}

theorem stmt {st : Stmt σ l} {rest : List (Stmt σ l)} (hrun : Run handler s es s')
    (hcode : s'.code s'.current = st :: rest) : Run handler s es (s'.exec rest st) := by
  have h := hrun.tail (.stmt hcode)
  rwa [Option.toList_none, List.append_nil] at h

theorem interrupt (hrun : Run handler s es s') (henabled : s'.enabled = true) (e : E) (next : ι) :
    Run handler s (es ++ [e]) { s' with shared := handler e s'.shared, current := next } :=
  hrun.tail (.interrupt henabled e next)

/-- The statements of the current thread, with no interrupt. -/
theorem advance (hrun : Run handler s es s') (n : Nat) : Run handler s es (s'.advance n) := by
  induction n generalizing s' with
  | zero => exact hrun
  | succ n ih =>
      rw [Threads.advance]
      split
      · exact hrun
      · rename_i st rest hcode
        exact ih (hrun.stmt hcode)

end Run

/-- A thread inside a section gets to its end. -/
theorem advance_section {s : Threads ι σ l} {left : List (σ × l → σ × l)} {rest : List (Stmt σ l)}
    (hcode : s.code s.current = left.map .act ++ .sti :: rest) :
    (s.advance (left.length + 1)).enabled = true := by
  induction left generalizing s with
  | nil =>
      rw [List.length_nil, advance, hcode]
      rfl
  | cons f left ih =>
      rw [List.length_cons, advance, hcode]
      exact ih (Function.update_self _ _ _)

end Threads

/-! ## Histories -/

/-- The calls of a thread in a history. -/
def callsOf (i : ι) (h : List (E ⊕ ι × C)) : List C :=
  h.filterMap fun x ↦ match x with
    | .inl _ => none
    | .inr (j, c) => if j = i then some c else none

theorem callsOf_event (i : ι) (e : E) : callsOf i (h ++ [.inl e]) = callsOf i h := by
  rw [callsOf, List.filterMap_append]
  exact List.append_nil _

theorem callsOf_call (i : ι) (c : C) : callsOf i (h ++ [.inr (i, c)]) = callsOf i h ++ [c] := by
  rw [callsOf, List.filterMap_append]
  simp [callsOf]

theorem callsOf_call_of_ne {i j : ι} (hne : i ≠ j) (c : C) :
    callsOf j (h ++ [.inr (i, c)]) = callsOf j h := by
  rw [callsOf, List.filterMap_append]
  simp [callsOf, hne]

theorem callsOf_eq (i : ι) (h : List (E ⊕ ι × C)) :
    callsOf i h = ((order h).filter fun x ↦ x.1 = i).map (·.2) := by
  induction h with
  | nil => rfl
  | cons x h ih =>
      cases x with
      | inl e => exact ih
      | inr x =>
          obtain ⟨j, c⟩ := x
          by_cases hj : j = i
          · simpa [callsOf, order, hj] using ih
          · simpa [callsOf, order, hj] using ih

/-! ## The invariant -/

/-- A thread is between two of its calls. -/
def Between (body : C → List (σ × l → σ × l)) (todo : ι → List C) (h : List (E ⊕ ι × C))
    (code : ι → List (Stmt σ l)) (i : ι) : Prop :=
  ∃ rest, todo i = callsOf i h ++ rest ∧ code i = rest.flatMap fun c ↦ critical (body c)

/-- What is seen of the state is a history, up to the call that the current thread is inside. -/
inductive Serial (view : σ → α) (onEvent : E → α → α) (onCall : C → α → α)
    (body : C → List (σ × l → σ × l)) (todo : ι → List C) (a : α) (s : Threads ι σ l)
    (h : List (E ⊕ ι × C)) : Prop
  | outside (henabled : s.enabled = true) (hview : view s.shared = replay onEvent onCall h a)
      (hbetween : ∀ i, Between body todo h s.code i)
  | inside (henabled : s.enabled = false) (c : C) (done left : List (σ × l → σ × l))
      (rest : List C) (x : σ × l) (hbody : body c = done ++ left)
      (htodo : todo s.current = callsOf s.current h ++ c :: rest)
      (hcode : s.code s.current = left.map .act ++ .sti :: rest.flatMap fun c ↦ critical (body c))
      (hview : view x.1 = replay onEvent onCall h a)
      (hstate : runBody done x = (s.shared, s.vars s.current))
      (hbetween : ∀ i, i ≠ s.current → Between body todo h s.code i)

variable {view : σ → α} {body : C → List (σ × l → σ × l)} {todo : ι → List C} {a : α}
  {handler : E → σ → σ} {s s' : Threads ι σ l} {es : List E} {label : Option E}

theorem Between.update {code : ι → List (Stmt σ l)} {i j : ι} (hb : Between body todo h code i)
    (hne : i ≠ j) (rest : List (Stmt σ l)) :
    Between body todo h (Function.update code j rest) i := by
  obtain ⟨calls, htodo, hcode⟩ := hb
  exact ⟨calls, htodo, (Function.update_of_ne hne _ _).trans hcode⟩

theorem Between.call {code : ι → List (Stmt σ l)} {i j : ι} (hb : Between body todo h code i)
    (hne : i ≠ j) (c : C) : Between body todo (h ++ [.inr (j, c)]) code i := by
  obtain ⟨calls, htodo, hcode⟩ := hb
  exact ⟨calls, by rw [callsOf_call_of_ne hne.symm, htodo], hcode⟩

theorem Between.event {code : ι → List (Stmt σ l)} {i : ι} (hb : Between body todo h code i)
    (e : E) : Between body todo (h ++ [.inl e]) code i := by
  obtain ⟨calls, htodo, hcode⟩ := hb
  exact ⟨calls, by rw [callsOf_event, htodo], hcode⟩

/-- **One step.** -/
theorem Serial.step (hs : Serial view onEvent onCall body todo a s h)
    (hcall : ∀ c x, view (runBody (body c) x).1 = onCall c (view x.1))
    (hevent : ∀ e m, view (handler e m) = onEvent e (view m))
    (hstep : Threads.Step handler s label s') :
    ∃ h', Serial view onEvent onCall body todo a s' h' ∧ events h' = events h ++ label.toList := by
  cases hstep with
  | interrupt henabled e next =>
      cases hs with
      | inside hoff => exact absurd henabled (by rw [hoff]; decide)
      | outside _ hview hbetween =>
          refine ⟨h ++ [.inl e], .outside henabled ?_ fun i ↦ (hbetween i).event e, events_event e⟩
          rw [replay_event, ← hview]
          exact hevent e s.shared
  | @stmt st rest' hcode =>
      cases hs with
      | outside henabled hview hbetween =>
          obtain ⟨rest, htodo, hrest⟩ := hbetween s.current
          rw [hrest] at hcode
          cases rest with
          | nil => cases hcode
          | cons c rest =>
              rw [List.flatMap_cons, critical, List.cons_append] at hcode
              obtain ⟨rfl, rfl⟩ := List.cons.inj hcode
              refine ⟨h, .inside rfl c [] (body c) rest (s.shared, s.vars s.current) rfl htodo ?_
                hview rfl fun i hi ↦ (hbetween i).update hi _, (List.append_nil _).symm⟩
              exact (Function.update_self _ _ _).trans (List.append_assoc _ [Stmt.sti] _)
      | inside henabled c done left rest x hbody htodo hcode' hview hstate hbetween =>
          rw [hcode'] at hcode
          cases left with
          | nil =>
              obtain ⟨rfl, rfl⟩ := List.cons.inj hcode
              rw [List.append_nil] at hbody
              refine ⟨h ++ [.inr (s.current, c)], .outside rfl ?_ fun i ↦ ?_,
                (events_call _).trans (List.append_nil _).symm⟩
              · rw [replay_call, ← hview, ← hcall, hbody, hstate]
                rfl
              · by_cases hi : i = s.current
                · subst hi
                  refine ⟨rest, ?_, Function.update_self _ _ _⟩
                  rw [callsOf_call, htodo, List.append_assoc]
                  rfl
                · exact ((hbetween i hi).update hi _).call hi c
          | cons f left =>
              obtain ⟨rfl, rfl⟩ := List.cons.inj hcode
              refine ⟨h, .inside henabled c (done ++ [f]) left rest x ?_ htodo
                (Function.update_self _ _ _) hview ?_ fun i hi ↦ (hbetween i hi).update hi _,
                (List.append_nil _).symm⟩
              · rw [hbody, List.append_assoc]
                rfl
              · rw [runBody, List.foldl_append]
                have hstate' : done.foldl (fun x f ↦ f x) x = (s.shared, s.vars s.current) := hstate
                rw [hstate']
                refine Prod.ext rfl ?_
                exact (Function.update_self s.current _ s.vars).symm

/-- **Every run is a history** of its interrupts, as long as every thread's code is a sequence of
calls. -/
theorem Threads.Run.serial (hrun : Run handler s es s')
    (hcall : ∀ c x, view (runBody (body c) x).1 = onCall c (view x.1))
    (hevent : ∀ e m, view (handler e m) = onEvent e (view m)) (henabled : s.enabled = true)
    (hcode : ∀ i, s.code i = (todo i).flatMap fun c ↦ critical (body c)) :
    ∃ h, Serial view onEvent onCall body todo (view s.shared) s' h ∧ events h = es := by
  induction hrun with
  | refl => exact ⟨[], .outside henabled rfl fun i ↦ ⟨todo i, rfl, hcode i⟩, rfl⟩
  | tail _ hstep ih =>
      obtain ⟨h, hs, rfl⟩ := ih
      exact hs.step hcall hevent hstep

/-- In every state that is reached, the section that the current thread may be inside comes to its
end, and then what is seen of the state is a history of whole calls and of the handlers of the
run. -/
theorem Threads.Run.settles (hrun : Run handler s es s')
    (hcall : ∀ c x, view (runBody (body c) x).1 = onCall c (view x.1))
    (hevent : ∀ e m, view (handler e m) = onEvent e (view m)) (henabled : s.enabled = true)
    (hcode : ∀ i, s.code i = (todo i).flatMap fun c ↦ critical (body c)) :
    ∃ n, (s'.enabled = true → n = 0) ∧ (s'.advance n).enabled = true ∧
      ∃ h, view (s'.advance n).shared = replay onEvent onCall h (view s.shared) ∧ events h = es ∧
        ∀ i, Between body todo h (s'.advance n).code i := by
  have hsettles : ∃ n, (s'.enabled = true → n = 0) ∧ (s'.advance n).enabled = true := by
    obtain ⟨h, hs, -⟩ := hrun.serial hcall hevent henabled hcode
    cases hs with
    | outside hon => exact ⟨0, fun _ ↦ rfl, hon⟩
    | inside hoff c done left rest x hbody htodo hcode =>
        exact ⟨left.length + 1, fun hon ↦ absurd hon (by rw [hoff]; decide), advance_section hcode⟩
  obtain ⟨n, hzero, hon⟩ := hsettles
  obtain ⟨h, hs, hes⟩ := (hrun.advance n).serial hcall hevent henabled hcode
  cases hs with
  | inside hoff => exact absurd hon (by rw [hoff]; decide)
  | outside _ hview hbetween => exact ⟨n, hzero, hon, h, hview, hes, hbetween⟩

end Illinix.Base
