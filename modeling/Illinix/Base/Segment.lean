import Mathlib.Algebra.Order.Ring.Int
import Mathlib.Logic.Function.Basic
import Mathlib.Tactic.Common

/-!
# Segments of a memory

A memory is a function on the integers, and `cells m a n` lists the `n` cells from address `a`
on.  A program that keeps a sequence in an array appends to it by a store behind the segment
(`cells_succ_update`), cuts its end off by a shorter length (`dropLast_cells`) and its
beginning by moving the rest down in place: `moveDown` is that loop, cell after cell from the
lowest, and `moveDown_apply` is its result.
-/

namespace Illinix.Base

universe u

variable {α : Type u}

/-- The `n` cells from address `a` on. -/
def cells (m : Int → α) (a : Int) (n : Nat) : List α :=
  (List.range n).map fun k : Nat ↦ m (a + k)

@[simp] theorem cells_zero (m : Int → α) (a : Int) : cells m a 0 = [] := rfl

@[simp] theorem length_cells (m : Int → α) (a : Int) (n : Nat) :
    (cells m a n).length = n := by
  rw [cells, List.length_map, List.length_range]

theorem getElem?_cells (m : Int → α) (a : Int) {k n : Nat} (h : k < n) :
    (cells m a n)[k]? = some (m (a + k)) := by
  rw [cells, List.getElem?_map, List.getElem?_range h, Option.map_some]

theorem cells_succ (m : Int → α) (a : Int) (n : Nat) :
    cells m a (n + 1) = cells m a n ++ [m (a + n)] := by
  rw [cells, List.range_succ, List.map_append, List.map_singleton, cells]

theorem cells_add (m : Int → α) (a : Int) (k n : Nat) :
    cells m a (k + n) = cells m a k ++ cells m (a + k) n := by
  induction n with
  | zero => rw [Nat.add_zero, cells_zero, List.append_nil]
  | succ n ih =>
      rw [← Nat.add_assoc, cells_succ, ih, cells_succ, List.append_assoc, Nat.cast_add,
        ← Int.add_assoc]

theorem cells_succ' (m : Int → α) (a : Int) (n : Nat) :
    cells m a (n + 1) = m a :: cells m (a + 1) n := by
  rw [Nat.add_comm, cells_add, cells_succ, cells_zero, List.nil_append, Nat.cast_zero,
    Int.add_zero, List.singleton_append, Nat.cast_one]

theorem dropLast_cells (m : Int → α) (a : Int) (n : Nat) :
    (cells m a (n + 1)).dropLast = cells m a n := by
  rw [cells_succ, List.dropLast_concat]

theorem take_cells (m : Int → α) (a : Int) {k n : Nat} (h : k ≤ n) :
    (cells m a n).take k = cells m a k := by
  rw [← Nat.add_sub_cancel' h, cells_add]
  exact List.take_left' (length_cells m a k)

theorem drop_cells (m : Int → α) (a : Int) {k n : Nat} (h : k ≤ n) :
    (cells m a n).drop k = cells m (a + k) (n - k) := by
  rw [← Nat.add_sub_cancel' h, cells_add, Nat.add_sub_cancel_left]
  exact List.drop_left' (length_cells m a k)

/-- Two segments are equal when their cells are. -/
theorem cells_congr {m m' : Int → α} {a a' : Int} {n : Nat}
    (h : ∀ k : Nat, k < n → m (a + k) = m' (a' + k)) : cells m a n = cells m' a' n :=
  List.map_congr_left fun k hk ↦ h k (List.mem_range.mp hk)

/-- The cells of the identity are the addresses. -/
theorem mem_cells_id {i j : Int} {n : Nat} : j ∈ cells id i n ↔ i ≤ j ∧ j < i + n := by
  rw [cells, List.mem_map]
  constructor
  · rintro ⟨k, hk, rfl⟩
    rw [List.mem_range] at hk
    simp only [id_eq]
    omega
  · rintro ⟨hle, hlt⟩
    refine ⟨(j - i).toNat, List.mem_range.mpr (by omega), ?_⟩
    simp only [id_eq]
    omega

/-- A store outside a segment. -/
theorem cells_update_of_not_mem {m : Int → α} {a b : Int} {n : Nat} (x : α)
    (h : b < a ∨ a + n ≤ b) : cells (Function.update m b x) a n = cells m a n := by
  refine cells_congr fun k hk ↦ Function.update_of_ne ?_ _ _
  omega

/-- A store right behind a segment appends to it. -/
theorem cells_succ_update (m : Int → α) (a : Int) (n : Nat) (x : α) :
    cells (Function.update m (a + n) x) a (n + 1) = cells m a n ++ [x] := by
  rw [cells_succ, cells_update_of_not_mem x (Or.inr (Int.le_refl _)), Function.update_self]

/-! ## Moving down in place -/

/-- The loop `for (; n > 0; n--, a++) m[a - d] = m[a]`. -/
def moveDown (d : Int) : Nat → Int → (Int → α) → Int → α
  | 0, _, m => m
  | n + 1, a, m => moveDown d n (a + 1) (Function.update m (a - d) (m a))

/-- The loop moves the cells, although it overwrites some before the end. -/
theorem moveDown_apply {d : Int} (hd : 0 ≤ d) (n : Nat) (a : Int) (m : Int → α) (b : Int) :
    moveDown d n a m b = if a - d ≤ b ∧ b < a - d + n then m (b + d) else m b := by
  induction n generalizing a m with
  | zero => rw [moveDown, if_neg (by omega)]
  | succ n ih =>
      rw [moveDown, ih]
      split
      · -- a cell of the rest of the loop: the store before it was below its source
        rename_i hb
        rw [if_pos (by omega), Function.update_of_ne (by omega)]
      · rename_i hb
        rcases eq_or_ne b (a - d) with rfl | hne
        · rw [Function.update_self, if_pos (by omega), Int.sub_add_cancel]
        · rw [Function.update_of_ne hne, if_neg (by omega)]

/-- The moved cells. -/
theorem cells_moveDown {d : Int} (hd : 0 ≤ d) (n : Nat) (a : Int) (m : Int → α) :
    cells (moveDown d n a m) (a - d) n = cells m a n := by
  refine cells_congr fun k hk ↦ ?_
  rw [moveDown_apply hd, if_pos (by omega)]
  congr 1
  omega

/-- The cells that the loop does not store to. -/
theorem cells_moveDown_of_not_mem {d : Int} (hd : 0 ≤ d) (n : Nat) (a : Int) (m : Int → α)
    {b : Int} {k : Nat} (h : b + k ≤ a - d ∨ a - d + n ≤ b) :
    cells (moveDown d n a m) b k = cells m b k := by
  refine cells_congr fun j hj ↦ ?_
  rw [moveDown_apply hd, if_neg (by omega)]

end Illinix.Base
