import Mathlib.Data.List.Basic
import Mathlib.Logic.Function.Basic
import Mathlib.Tactic.Common

/-!
# Stacks in memory

A stack of longs that grows down.  Memory is taken long by long, so an address is a multiple of 4
where it is used.  `OnStack m sp xs` says that the longs from `sp` on are `xs`, the top first; it
says nothing of what lies below `sp`, so a push may write over anything there.
-/

namespace Illinix.Base

variable {α : Type*} {m m' : Nat → α} {sp a : Nat} {x : α} {xs ys : List α}

/-- The longs from `sp` on. -/
def OnStack (m : Nat → α) : Nat → List α → Prop
  | _, [] => True
  | sp, x :: xs => m (sp / 4) = x ∧ OnStack m (sp + 4) xs

namespace OnStack

theorem head (h : OnStack m sp (x :: xs)) : m (sp / 4) = x := h.1

theorem tail (h : OnStack m sp (x :: xs)) : OnStack m (sp + 4) xs := h.2

/-- The long at a depth. -/
theorem get (h : OnStack m sp xs) {i : Nat} (hi : i < xs.length) :
    m ((sp + 4 * i) / 4) = xs[i] := by
  induction xs generalizing sp i with
  | nil => exact absurd hi (Nat.not_lt_zero i)
  | cons x xs ih =>
      cases i with
      | zero => exact h.head
      | succ i =>
          have hrest := ih h.tail (Nat.lt_of_succ_lt_succ hi)
          rwa [show sp + 4 * (i + 1) = sp + 4 + 4 * i by omega]

/-- Two memories that agree on the stack. -/
theorem congr (h : OnStack m sp xs)
    (heq : ∀ i, sp / 4 ≤ i → i < sp / 4 + xs.length → m' i = m i) : OnStack m' sp xs := by
  induction xs generalizing sp with
  | nil => trivial
  | cons x xs ih =>
      rw [List.length_cons] at heq
      refine ⟨(heq _ (Nat.le_refl _) (by omega)).trans h.head, ih h.tail fun i hi hi' ↦ ?_⟩
      exact heq i (by omega) (by omega)

/-- A store below the top. -/
theorem update_below (h : OnStack m sp xs) (ha : a / 4 < sp / 4) (y : α) :
    OnStack (Function.update m (a / 4) y) sp xs :=
  h.congr fun i hi _ ↦ Function.update_of_ne (by omega) _ _

theorem push (h : OnStack m sp xs) (hsp : 4 ≤ sp) (x : α) :
    OnStack (Function.update m ((sp - 4) / 4) x) (sp - 4) (x :: xs) := by
  refine ⟨Function.update_self _ _ _, ?_⟩
  rw [Nat.sub_add_cancel hsp]
  exact h.update_below (by omega) x

/-- The part of a stack that is behind some longs. -/
theorem drop (h : OnStack m sp (xs ++ ys)) : OnStack m (sp + 4 * xs.length) ys := by
  induction xs generalizing sp with
  | nil => exact h
  | cons x xs ih =>
      have hrest := ih h.tail
      rwa [List.length_cons, show sp + 4 * (xs.length + 1) = sp + 4 + 4 * xs.length by omega]

/-- Some longs in front of a stack. -/
theorem append (h : OnStack m sp xs) (h' : OnStack m (sp + 4 * xs.length) ys) :
    OnStack m sp (xs ++ ys) := by
  induction xs generalizing sp with
  | nil => exact h'
  | cons x xs ih =>
      refine ⟨h.head, ih h.tail ?_⟩
      rwa [List.length_cons, show sp + 4 * (xs.length + 1) = sp + 4 + 4 * xs.length by omega] at h'

/-- Any longs are on the stack as what they are. -/
theorem exists_of_length (m : Nat → α) (sp n : Nat) :
    ∃ xs : List α, xs.length = n ∧ OnStack m sp xs := by
  induction n generalizing sp with
  | zero => exact ⟨[], rfl, trivial⟩
  | succ n ih =>
      obtain ⟨xs, hlen, hxs⟩ := ih (sp + 4)
      exact ⟨m (sp / 4) :: xs, by rw [List.length_cons, hlen], rfl, hxs⟩

end OnStack

end Illinix.Base
