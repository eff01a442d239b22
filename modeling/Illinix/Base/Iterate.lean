import Mathlib.Data.Sum.Basic
import Mathlib.Tactic.Common

/-!
# Loops

A loop is given by its body `f : A → B ⊕ A`: one round either leaves the loop with a result or
goes on in another state.  `rounds f n` is what at most `n` rounds come to, and `Leaves f a b`
says that the loop, begun in `a`, is left with `b`.  A loop that is never left is still described
by its `rounds`.

The rules are

* `exists_rounds` and `exists_leaves` — a loop whose state is known round by round, up to the round
  that leaves it: the invariant has the number of the round as an index, and no measure is needed;
* `rounds_liftRel` — two loops whose bodies keep a relation keep it for any number of rounds.
-/

namespace Illinix.Base

universe u v

variable {A A' : Type u} {B B' : Type v} {f : A → B ⊕ A}

/-- What at most `n` rounds come to. -/
def rounds (f : A → B ⊕ A) : Nat → A → B ⊕ A
  | 0, a => .inr a
  | n + 1, a => (f a).elim .inl (rounds f n)

theorem rounds_succ_of_inl {a : A} {b : B} (h : f a = .inl b) (n : Nat) :
    rounds f (n + 1) a = .inl b := by
  rw [rounds, h, Sum.elim_inl]

theorem rounds_succ_of_inr {a a' : A} (h : f a = .inr a') (n : Nat) :
    rounds f (n + 1) a = rounds f n a' := by
  rw [rounds, h, Sum.elim_inr]

/-- More rounds change nothing once the loop is left. -/
theorem rounds_mono {a : A} {b : B} {m n : Nat} (h : rounds f m a = .inl b) (hle : m ≤ n) :
    rounds f n a = .inl b := by
  induction m generalizing a n with
  | zero => cases h
  | succ m ih =>
      obtain ⟨n, rfl⟩ := Nat.exists_eq_succ_of_ne_zero (Nat.ne_zero_of_lt hle)
      cases hf : f a with
      | inl b' => rw [rounds_succ_of_inl hf] at h ⊢; exact h
      | inr a' =>
          rw [rounds_succ_of_inr hf] at h ⊢
          exact ih h (Nat.le_of_succ_le_succ hle)

/-- The loop, begun in `a`, is left with `b`. -/
def Leaves (f : A → B ⊕ A) (a : A) (b : B) : Prop := ∃ n, rounds f n a = .inl b

/-- **A loop of known length.**  `I k` holds after `k` rounds, and the round after `n` of them
leaves the loop. -/
theorem exists_rounds {I : Nat → A → Prop} {Q : B → Prop} (n : Nat)
    (hmore : ∀ k, k < n → ∀ a, I k a → ∃ a', f a = .inr a' ∧ I (k + 1) a')
    (hdone : ∀ a, I n a → ∃ b, f a = .inl b ∧ Q b) {a : A} (h : I 0 a) :
    ∃ b, rounds f (n + 1) a = .inl b ∧ Q b := by
  suffices hfrom : ∀ m k, k + m = n → ∀ a, I k a → ∃ b, rounds f (m + 1) a = .inl b ∧ Q b from
    hfrom n 0 (Nat.zero_add n) a h
  intro m
  induction m with
  | zero =>
      rintro k rfl a ha
      obtain ⟨b, hb, hq⟩ := hdone a ha
      exact ⟨b, rounds_succ_of_inl hb 0, hq⟩
  | succ m ih =>
      rintro k rfl a ha
      obtain ⟨a', hf, ha'⟩ := hmore k (by omega) a ha
      obtain ⟨b, hb, hq⟩ := ih (k + 1) (by omega) a' ha'
      exact ⟨b, (rounds_succ_of_inr hf _).trans hb, hq⟩

theorem exists_leaves {I : Nat → A → Prop} {Q : B → Prop} (n : Nat)
    (hmore : ∀ k, k < n → ∀ a, I k a → ∃ a', f a = .inr a' ∧ I (k + 1) a')
    (hdone : ∀ a, I n a → ∃ b, f a = .inl b ∧ Q b) {a : A} (h : I 0 a) :
    ∃ b, Leaves f a b ∧ Q b := by
  obtain ⟨b, hb, hq⟩ := exists_rounds n hmore hdone h
  exact ⟨b, ⟨n + 1, hb⟩, hq⟩

/-- **Two loops in step.** -/
theorem rounds_liftRel {f' : A' → B' ⊕ A'} {R : A → A' → Prop} {S : B → B' → Prop}
    (hbody : ∀ a a', R a a' → Sum.LiftRel S R (f a) (f' a')) (n : Nat) {a : A} {a' : A'}
    (h : R a a') : Sum.LiftRel S R (rounds f n a) (rounds f' n a') := by
  induction n generalizing a a' with
  | zero => exact .inr h
  | succ n ih =>
      have hround := hbody a a' h
      rw [rounds, rounds]
      generalize f a = r at hround ⊢
      generalize f' a' = r' at hround ⊢
      cases hround with
      | inl hs => exact .inl hs
      | inr hr => exact ih hr

end Illinix.Base
