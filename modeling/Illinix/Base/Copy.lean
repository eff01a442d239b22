import Illinix.Base.Store

/-!
# Stores through a translation

A store goes to a virtual address `v`.  The translation either gives the physical address that it
ends up at, or stops the run with a fault at `v`.  `CopyRun` is what a sequence of such stores has done:
the stores that were made, in order, and the address of the one that faulted, if any.

`copyBytes` stores a list from an address on, with addresses that wrap at `size`.  On a part of the
address space that is mapped without gaps it makes the stores of `logAt` (`copyBytes_of_mapped`), and
it stops at the first address behind that part (`copyBytes_fault`).
-/

namespace Illinix.Base

universe u

variable {α : Type u}

/-- A store that was made. -/
structure Store (α : Type u) where
  virt : Nat
  phys : Nat
  val : α

/-- What a sequence of stores has done. -/
structure CopyRun (α : Type u) where
  log : List (Store α)
  fault : Option Nat

namespace CopyRun

/-- Nothing was stored. -/
def done : CopyRun α := ⟨[], none⟩

/-- One sequence of stores and then another, unless the first one faulted. -/
def andThen (r s : CopyRun α) : CopyRun α :=
  match r.fault with
  | some _ => r
  | none => ⟨r.log ++ s.log, s.fault⟩

/-- The addresses that the run has stored to, or has tried to. -/
def addresses (r : CopyRun α) : List Nat := r.log.map Store.virt ++ r.fault.toList

/-- The stores, by physical address. -/
def physLog (r : CopyRun α) : List (Nat × α) := r.log.map fun s ↦ (s.phys, s.val)

theorem andThen_of_fault {r : CopyRun α} {v : Nat} (h : r.fault = some v) (s : CopyRun α) :
    r.andThen s = r := by
  rw [andThen, h]

theorem andThen_of_ok {r : CopyRun α} (h : r.fault = none) (s : CopyRun α) :
    r.andThen s = ⟨r.log ++ s.log, s.fault⟩ := by
  rw [andThen, h]

theorem andThen_assoc (r s t : CopyRun α) : (r.andThen s).andThen t = r.andThen (s.andThen t) := by
  cases hr : r.fault with
  | some v => rw [andThen_of_fault hr, andThen_of_fault hr, andThen_of_fault hr]
  | none =>
      rw [andThen_of_ok hr, andThen_of_ok hr]
      cases hs : s.fault with
      | some v => rw [andThen_of_fault (v := v) rfl, andThen_of_fault hs, hs]
      | none => rw [andThen_of_ok rfl, andThen_of_ok hs, List.append_assoc]

end CopyRun

section Copy

variable (tr : Nat → Option Nat)

/-- One store. -/
def storeOne (v : Nat) (x : α) : CopyRun α :=
  match tr v with
  | none => ⟨[], some v⟩
  | some a => ⟨[⟨v, a, x⟩], none⟩

/-- The elements of a list, from address `v` on. -/
def copyBytes (size : Nat) : Nat → List α → CopyRun α
  | _, [] => .done
  | v, x :: l => (storeOne tr v x).andThen (copyBytes size ((v + 1) % size) l)

variable {tr} {size : Nat}

/-- A copy in two pieces. -/
theorem copyBytes_append (v : Nat) (l l' : List α) :
    copyBytes tr size (v % size) (l ++ l') =
      (copyBytes tr size (v % size) l).andThen (copyBytes tr size ((v + l.length) % size) l') := by
  induction l generalizing v with
  | nil => rfl
  | cons x l ih =>
      have hnext : (v % size + 1) % size = (v + 1) % size := Nat.mod_add_mod v size 1
      rw [List.cons_append, copyBytes, copyBytes, hnext, ih, CopyRun.andThen_assoc, List.length_cons,
        Nat.add_assoc, Nat.add_comm 1]

/-- Where the addresses from `v` on are mapped to those from `a` on, everything is stored. -/
theorem copyBytes_of_mapped {v a : Nat} {l : List α} (hsize : v + l.length ≤ size)
    (htr : ∀ j, j < l.length → tr (v + j) = some (a + j)) :
    (copyBytes tr size (v % size) l).fault = none ∧
      (copyBytes tr size (v % size) l).physLog = logAt a l ∧
      (copyBytes tr size (v % size) l).log.map Store.virt = List.range' v l.length := by
  induction l generalizing v a with
  | nil => exact ⟨rfl, rfl, rfl⟩
  | cons x l ih =>
      rw [List.length_cons] at hsize htr
      have hv : v % size = v := Nat.mod_eq_of_lt (by omega)
      have hfirst : tr v = some a := htr 0 (Nat.succ_pos _)
      have hrest : ∀ j, j < l.length → tr (v + 1 + j) = some (a + 1 + j) := by
        intro j hj
        rw [Nat.add_assoc, Nat.add_comm 1 j, htr (j + 1) (by omega), Nat.add_assoc, Nat.add_comm 1 j]
      obtain ⟨hfault, hlog, hvirt⟩ := ih (by omega) hrest
      rw [hv, copyBytes, storeOne, hfirst]
      dsimp only
      rw [CopyRun.andThen_of_ok rfl]
      refine ⟨hfault, ?_, ?_⟩
      · rw [CopyRun.physLog, List.map_append, logAt, ← hlog]
        rfl
      · rw [List.map_append, hvirt, List.length_cons, List.range'_succ]
        rfl

/-- The copy stops at the first address behind the mapped part, which it has filled. -/
theorem copyBytes_fault {v a n : Nat} {l : List α} (hn : n < l.length) (hsize : v + n < size)
    (htr : ∀ j, j < n → tr (v + j) = some (a + j)) (hend : tr (v + n) = none) :
    (copyBytes tr size (v % size) l).fault = some (v + n) ∧
      (copyBytes tr size (v % size) l).physLog = logAt a (l.take n) := by
  have hlen : (l.take n).length = n := List.length_take_of_le hn.le
  have hmapped : ∀ j, j < (l.take n).length → tr (v + j) = some (a + j) := by rwa [hlen]
  have hin : v + (l.take n).length ≤ size := by
    rw [hlen]
    exact hsize.le
  obtain ⟨hok, hlog, -⟩ := copyBytes_of_mapped hin hmapped
  have happend : copyBytes tr size (v % size) _ = _ := copyBytes_append v (l.take n) (l.drop n)
  rw [List.take_append_drop, hlen, Nat.mod_eq_of_lt hsize, List.drop_eq_getElem_cons hn,
    copyBytes, storeOne, hend] at happend
  rw [happend, CopyRun.andThen_of_ok hok]
  refine ⟨rfl, ?_⟩
  rw [← hlog, CopyRun.physLog, CopyRun.physLog]
  exact congrArg _ (List.append_nil _)

end Copy

end Illinix.Base
