import Mathlib.Algebra.Order.Ring.Int
import Mathlib.Logic.Function.Basic
import Mathlib.Tactic.Common

/-!
# Logs of stores

What a routine does to a buffer is a log of stores, in the order in which they are made.  The log
says both where the routine writes and what the buffer holds afterwards (`applyLog`).  `logAt a l`
is the log of a loop that stores the elements of `l` from address `a` on, and
`applyLog_logAt_add` reads its result off.
-/

namespace Illinix.Base

universe u

variable {α : Type u}

/-- The memory after the stores of a log. -/
def applyLog (m : Nat → α) (log : List (Nat × α)) : Nat → α :=
  log.foldl (fun m s ↦ Function.update m s.1 s.2) m

/-- The stores of the elements of a list, from address `a` on. -/
def logAt : Nat → List α → List (Nat × α)
  | _, [] => []
  | a, x :: l => (a, x) :: logAt (a + 1) l

@[simp] theorem applyLog_nil (m : Nat → α) : applyLog m [] = m := rfl

theorem applyLog_cons (m : Nat → α) (s : Nat × α) (log : List (Nat × α)) :
    applyLog m (s :: log) = applyLog (Function.update m s.1 s.2) log := rfl

theorem applyLog_append (m : Nat → α) (log log' : List (Nat × α)) :
    applyLog m (log ++ log') = applyLog (applyLog m log) log' := List.foldl_append

/-- The addresses of the stores. -/
theorem mem_logAt_fst {a i : Nat} {l : List α} :
    i ∈ (logAt a l).map Prod.fst ↔ a ≤ i ∧ i < a + l.length := by
  induction l generalizing a with
  | nil =>
      simp only [logAt, List.map_nil, List.not_mem_nil, List.length_nil, false_iff]
      omega
  | cons x l ih =>
      rw [logAt, List.map_cons, List.mem_cons, ih, List.length_cons]
      dsimp only
      omega

theorem logAt_append (a : Nat) (l l' : List α) :
    logAt a (l ++ l') = logAt a l ++ logAt (a + l.length) l' := by
  induction l generalizing a with
  | nil => rfl
  | cons x l ih =>
      rw [List.cons_append, logAt, ih, logAt, List.length_cons, Nat.add_assoc, Nat.add_comm 1]
      rfl

/-- The stored elements, in order. -/
@[simp] theorem map_snd_logAt (a : Nat) (l : List α) : (logAt a l).map Prod.snd = l := by
  induction l generalizing a with
  | nil => rfl
  | cons x l ih => rw [logAt, List.map_cons, ih]

/-- Storing over the last element. -/
theorem update_applyLog_logAt (m : Nat → α) (a : Nat) (l : List α) (x y : α) :
    Function.update (applyLog m (logAt a (l ++ [x]))) (a + l.length) y =
      applyLog m (logAt a (l ++ [y])) := by
  rw [logAt_append, logAt_append, applyLog_append, applyLog_append]
  exact Function.update_idem ..

/-- A cell below the first store. -/
theorem applyLog_logAt_of_lt (m : Nat → α) {a x : Nat} (l : List α) (h : x < a) :
    applyLog m (logAt a l) x = m x := by
  induction l generalizing a m with
  | nil => rfl
  | cons y l ih =>
      rw [logAt, applyLog_cons, ih _ (by omega), Function.update_of_ne (by omega)]

/-- The stored elements, and the cells behind them. -/
theorem applyLog_logAt_add (m : Nat → α) (a j : Nat) (l : List α) :
    applyLog m (logAt a l) (a + j) = l.getD j (m (a + j)) := by
  induction l generalizing a j m with
  | nil => rfl
  | cons y l ih =>
      rw [logAt, applyLog_cons]
      cases j with
      | zero => rw [applyLog_logAt_of_lt _ l (by omega), Nat.add_zero, Function.update_self]; rfl
      | succ j =>
          have hsucc : a + (j + 1) = a + 1 + j := by omega
          rw [hsucc, ih, Function.update_of_ne (by omega)]
          rfl

/-- The memory after a list was stored from address `0` on. -/
theorem applyLog_logAt_zero (m : Nat → α) (l : List α) (j : Nat) :
    applyLog m (logAt 0 l) j = l.getD j (m j) := by
  have h := applyLog_logAt_add m 0 j l
  rwa [Nat.zero_add] at h

/-- The first `n` cells, when at most `n` elements were stored. -/
theorem map_range_getD {l : List α} {n : Nat} (h : l.length ≤ n) (m : Nat → α) :
    ((List.range n).map fun j ↦ l.getD j (m j)) =
      l ++ (List.range' l.length (n - l.length)).map m := by
  refine List.ext_getElem? fun j ↦ ?_
  by_cases hj : j < n
  · rw [List.getElem?_map, List.getElem?_range hj, Option.map_some, List.getD_eq_getElem?_getD]
    by_cases hin : j < l.length
    · rw [List.getElem?_append_left hin, List.getElem?_eq_getElem hin, Option.getD_some]
    · have hout := Nat.not_lt.mp hin
      rw [List.getElem?_append_right hout, List.getElem?_eq_none hout, Option.getD_none,
        List.getElem?_map, List.getElem?_range' (by omega), Option.map_some, Nat.one_mul,
        Nat.add_sub_cancel' hout]
  · rw [List.getElem?_eq_none, List.getElem?_eq_none]
    · rw [List.length_append, List.length_map, List.length_range']
      omega
    · rw [List.length_map, List.length_range]
      omega

/-! ## Watching the accesses -/

/-- A memory, and the addresses that were loaded from or stored to so far. -/
structure Logged (ι : Type u) (α : Type u) where
  mem : ι → α
  log : List ι

namespace Logged

variable {ι : Type u} (t : Logged ι α) (i : ι)

def load : α × Logged ι α := (t.mem i, { t with log := t.log ++ [i] })

def store [DecidableEq ι] (x : α) : Logged ι α := ⟨Function.update t.mem i x, t.log ++ [i]⟩

/-- Every access was to an address that satisfies `P`. -/
def Within (P : ι → Prop) : Prop := ∀ i ∈ t.log, P i

variable {t i} {P : ι → Prop}

theorem Within.load (h : t.Within P) (hi : P i) : (t.load i).2.Within P := by
  intro j hj
  rcases List.mem_append.mp hj with hj | hj
  · exact h j hj
  · rw [List.mem_singleton.mp hj]
    exact hi

theorem Within.store [DecidableEq ι] (h : t.Within P) (hi : P i) (x : α) :
    (t.store i x).Within P := h.load hi

end Logged

end Illinix.Base
