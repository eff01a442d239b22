import Mathlib.Algebra.Order.BigOperators.Group.List
import Mathlib.Algebra.Order.Ring.Int
import Mathlib.Tactic.Common

/-!
# Concatenations of equal-sized blocks

A file is stored as a list of blocks of one size `c`.  Byte `i` of the
concatenation is byte `i % c` of block `i / c`, and reading the concatenation
piece by piece is reading it at once: `flatten_pieces`.
-/

namespace Illinix.Base

universe u v

variable {α : Type u} {β : Type v}

theorem length_flatMap_const {f : α → List β} {c : Nat} (hf : ∀ x, (f x).length = c)
    (l : List α) : (l.flatMap f).length = l.length * c := by
  induction l with
  | nil => simp
  | cons x l ih =>
      rw [List.flatMap_cons, List.length_append, hf, ih, List.length_cons, Nat.succ_mul,
        Nat.add_comm]

/-- Indexing a concatenation of blocks of size `c`. -/
theorem getElem?_flatMap_const {f : α → List β} {c : Nat} (hc : 0 < c)
    (hf : ∀ x, (f x).length = c) (l : List α) (i : Nat) :
    (l.flatMap f)[i]? = l[i / c]?.bind fun x ↦ (f x)[i % c]? := by
  induction l generalizing i with
  | nil => simp
  | cons x l ih =>
      rw [List.flatMap_cons]
      by_cases hi : i < c
      · rw [List.getElem?_append_left (by rw [hf]; exact hi), Nat.div_eq_of_lt hi,
          Nat.mod_eq_of_lt hi]
        rfl
      · have hle : c ≤ i := Nat.not_lt.mp hi
        rw [List.getElem?_append_right (by rw [hf]; exact hle), hf, ih,
          Nat.div_eq_sub_div hc hle, Nat.mod_eq_sub_mod hle, List.getElem?_cons_succ]

/-- The `n` elements from place `i` on, one element at a time. -/
theorem take_drop_succ {l : List α} {i n : Nat} {a : α} (h : l[i]? = some a) :
    (l.drop i).take (n + 1) = a :: (l.drop (i + 1)).take n := by
  obtain ⟨hi, rfl⟩ := List.getElem?_eq_some_iff.mp h
  rw [List.drop_eq_getElem_cons hi, List.take_succ_cons]

/-- The successive pieces of `l`, of the given sizes; a piece is shorter where `l`
ends. -/
def pieces (l : List α) : List Nat → List (List α)
  | [] => []
  | n :: ns => l.take n :: pieces (l.drop n) ns

/-- Reading piece by piece is reading at once. -/
theorem flatten_pieces (l : List α) (ns : List Nat) :
    (pieces l ns).flatten = l.take ns.sum := by
  induction ns generalizing l with
  | nil => rfl
  | cons n ns ih => rw [pieces, List.flatten_cons, ih, List.sum_cons, List.take_add]

theorem pieces_append (l : List α) (ns ns' : List Nat) :
    pieces l (ns ++ ns') = pieces l ns ++ pieces (l.drop ns.sum) ns' := by
  induction ns generalizing l with
  | nil => rfl
  | cons n ns ih =>
      rw [List.cons_append, pieces, ih, pieces, List.cons_append, List.sum_cons, List.drop_drop]

theorem length_pieces (l : List α) (ns : List Nat) : (pieces l ns).length = ns.length := by
  induction ns generalizing l with
  | nil => rfl
  | cons n ns ih => rw [pieces, List.length_cons, ih, List.length_cons]

/-- Dropping what a `take` returned is dropping as much as it was asked for. -/
theorem drop_length_take (l : List α) (n : Nat) : l.drop (l.take n).length = l.drop n := by
  rw [List.length_take]
  by_cases h : n ≤ l.length
  · rw [Nat.min_eq_left h]
  · have hle : l.length ≤ n := Nat.le_of_not_le h
    rw [Nat.min_eq_right hle, List.drop_eq_nil_of_le hle, List.drop_length]

end Illinix.Base
