import Illinix.Base.Store
import Mathlib.Data.List.GetD

/-!
# Filled and copied ranges of a memory

`overlay m a n f` is the memory `m` with the `n` cells from `a` on given by `f`, and
`copied m d s n` the one in which those from `d` on hold what those from `s` on held in `m`.  These
are the results that a fill and a copy are to have, without an order in which cells are written.

A routine goes from one end to the other, a chunk at a time, and reads a chunk only after it has
written the ones before.  The two rules say that this does not matter: going up if the destination
is not ahead of the source within the range (`copied_up`), and going down if it is not behind
(`copied_down`).
-/

namespace Illinix.Base

universe u

variable {α : Type u}

/-- The cells `a, …, a + n - 1` are given by `f`. -/
def overlay (m : Nat → α) (a n : Nat) (f : Nat → α) : Nat → α :=
  fun x ↦ if a ≤ x ∧ x < a + n then f (x - a) else m x

/-- The cells from `d` on hold what those from `s` on held. -/
def copied (m : Nat → α) (d s n : Nat) : Nat → α := overlay m d n fun i ↦ m (s + i)

variable (m : Nat → α) {a x i n k : Nat} {f g : Nat → α}

theorem overlay_add (h : i < n) : overlay m a n f (a + i) = f i := by
  rw [overlay, if_pos ⟨Nat.le_add_right a i, Nat.add_lt_add_left h a⟩, Nat.add_sub_cancel_left]

theorem overlay_of_notMem (h : ¬ (a ≤ x ∧ x < a + n)) : overlay m a n f x = m x := if_neg h

@[simp] theorem overlay_zero (a : Nat) (f : Nat → α) : overlay m a 0 f = m :=
  funext fun _ ↦ overlay_of_notMem m (by omega)

theorem overlay_congr (h : ∀ i, i < n → f i = g i) : overlay m a n f = overlay m a n g := by
  funext x
  rw [overlay, overlay]
  split
  · rename_i hx
    exact h (x - a) (by omega)
  · rfl

theorem overlay_one (a : Nat) (f : Nat → α) : overlay m a 1 f = Function.update m a (f 0) := by
  funext x
  by_cases hx : x = a
  · rw [hx, Function.update_self]
    exact overlay_add m Nat.one_pos
  · rw [Function.update_of_ne hx]
    exact overlay_of_notMem m (by omega)

/-- Two ranges side by side. -/
theorem overlay_append (a k n : Nat) (f : Nat → α) :
    overlay (overlay m a k f) (a + k) n (fun i ↦ f (k + i)) = overlay m a (k + n) f := by
  funext x
  by_cases hlow : a ≤ x ∧ x < a + k
  · rw [overlay_of_notMem _ (by omega), overlay, if_pos hlow, overlay, if_pos (by omega)]
  · by_cases hhigh : a + k ≤ x ∧ x < a + k + n
    · have hsub : k + (x - (a + k)) = x - a := by omega
      rw [overlay, if_pos hhigh, overlay, if_pos (by omega), hsub]
    · rw [overlay_of_notMem _ hhigh, overlay_of_notMem _ hlow, overlay_of_notMem _ (by omega)]

/-- They may be filled in either order. -/
theorem overlay_append' (a k n : Nat) (f : Nat → α) :
    overlay (overlay m (a + k) n fun i ↦ f (k + i)) a k f = overlay m a (k + n) f := by
  rw [← overlay_append]
  funext x
  by_cases hlow : a ≤ x ∧ x < a + k
  · rw [overlay, if_pos hlow, overlay_of_notMem _ (by omega), overlay, if_pos hlow]
  · rw [overlay_of_notMem _ hlow, overlay, overlay]
    split
    · rfl
    · exact (overlay_of_notMem m hlow).symm

/-- The stores of a loop over the range. -/
theorem applyLog_logAt_range (a n : Nat) (f : Nat → α) :
    applyLog m (logAt a ((List.range n).map f)) = overlay m a n f := by
  have hlen : ((List.range n).map f).length = n := by rw [List.length_map, List.length_range]
  funext x
  by_cases hlow : x < a
  · rw [applyLog_logAt_of_lt m _ hlow, overlay_of_notMem m (by omega)]
  · obtain ⟨i, rfl⟩ := Nat.exists_eq_add_of_le (Nat.not_lt.mp hlow)
    rw [applyLog_logAt_add]
    by_cases hi : i < n
    · rw [overlay_add m hi, List.getD_eq_getElem?_getD, List.getElem?_map, List.getElem?_range hi,
        Option.map_some, Option.getD_some]
    · rw [overlay_of_notMem m (by omega), List.getD_eq_default _ _ (by omega)]

/-! ## Copies -/

variable {d s : Nat}

theorem copied_add (h : i < n) : copied m d s n (d + i) = m (s + i) := overlay_add m h

theorem copied_of_notMem (h : ¬ (d ≤ x ∧ x < d + n)) : copied m d s n x = m x :=
  overlay_of_notMem m h

@[simp] theorem copied_zero (d s : Nat) : copied m d s 0 = m := overlay_zero m d _

theorem copied_one (d s : Nat) : copied m d s 1 = Function.update m d (m s) := overlay_one m d _

/-- Going up. -/
theorem copied_up (h : d ≤ s ∨ s + (k + n) ≤ d) :
    copied (copied m d s k) (d + k) (s + k) n = copied m d s (k + n) := by
  have hsrc : ∀ i, i < n → copied m d s k (s + k + i) = m (s + (k + i)) := by
    intro i hi
    rw [copied_of_notMem _ (by omega), Nat.add_assoc]
  calc copied (copied m d s k) (d + k) (s + k) n
      = overlay (copied m d s k) (d + k) n (fun i ↦ m (s + (k + i))) := overlay_congr _ hsrc
    _ = copied m d s (k + n) := overlay_append m d k n fun i ↦ m (s + i)

/-- Going down. -/
theorem copied_down (h : s ≤ d ∨ d + (k + n) ≤ s) :
    copied (copied m (d + k) (s + k) n) d s k = copied m d s (k + n) := by
  have hsrc : ∀ i, i < k → copied m (d + k) (s + k) n (s + i) = m (s + i) := fun i hi ↦
    copied_of_notMem _ (by omega)
  have hhigh : copied m (d + k) (s + k) n = overlay m (d + k) n fun i ↦ m (s + (k + i)) :=
    overlay_congr m fun i _ ↦ by rw [Nat.add_assoc]
  calc copied (copied m (d + k) (s + k) n) d s k
      = overlay (copied m (d + k) (s + k) n) d k (fun i ↦ m (s + i)) := overlay_congr _ hsrc
    _ = copied m d s (k + n) := by rw [hhigh]; exact overlay_append' m d k n fun i ↦ m (s + i)

end Illinix.Base
