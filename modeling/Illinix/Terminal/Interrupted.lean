import Illinix.Base.Run
import Illinix.Terminal.Driver

/-!
# A read that is interrupted

Interrupts stay enabled during the `read` system call, so keys are pressed while
`terminal_read` runs.  Here the call goes statement by statement, the loops split into their
parts, and between any two statements the keyboard handler may run.

The call fixes how much it returns (`actual_copy`), copies, moves the rest down in place and
takes `actual_copy` off `tail`.  A character typed before the moving loop has gone past its cell
is moved with the others.  One typed behind the loop stays where it is, and the cell that `tail`
then ends at holds another; a backspace typed when everything pending is about to be returned
takes one too many off `tail`.  `read_keeps_typed` says that these are the only cases in which a
call does not keep what was typed.
-/

namespace Illinix

open Base

/-- The statements of `terminal_read`. -/
inductive ReadPc
  | target
  | wait
  | clear
  | test
  | length
  | copyInit
  | copyTest
  | copyBody
  | copyIncr
  | terminate
  | shiftInit
  | shiftTest
  | shiftBody
  | shiftIncr
  | update
  | ret
  | done
deriving DecidableEq, Repr

/-- A call of `terminal_read`: the driver, the next statement, the local variables, the caller's
buffer, and the result. -/
structure ReadCall where
  tty : Tty
  pc : ReadPc
  target : Nat
  i : Int
  actualCopy : Int
  dest : Int → UInt8
  result : Int

/-- The call goes on by a statement, or a key is pressed. -/
inductive ReadEvent
  | statement
  | key (c : UInt8)
deriving DecidableEq, Repr

namespace ReadCall

/-- One statement of `terminal_read(fd, buf, nbytes)`. -/
def statement (nbytes : Int) (c : ReadCall) : Option ReadCall :=
  match c.pc with
  | .target => some { c with target := c.tty.activeTty, pc := .wait }
  | .wait => some { c with pc := if c.tty.enterStatus then .clear else .wait }
  | .clear => some { c with tty := { c.tty with enterStatus := false }, pc := .test }
  | .test =>
      some (if c.tty.tail c.target = -1 then { c with result := 0, pc := .done }
        else { c with pc := .length })
  | .length => some { c with actualCopy := c.tty.actualCopy c.target nbytes, pc := .copyInit }
  | .copyInit => some { c with i := 0, pc := .copyTest }
  | .copyTest => some { c with pc := if c.i ≤ c.actualCopy - 1 then .copyBody else .terminate }
  | .copyBody =>
      let (x, tty) := c.tty.load c.target c.i
      some { c with tty := tty, dest := Function.update c.dest c.i x, pc := .copyIncr }
  | .copyIncr => some { c with i := c.i + 1, pc := .copyTest }
  | .terminate => some { c with dest := Function.update c.dest c.i 0, pc := .shiftInit }
  | .shiftInit => some { c with i := c.actualCopy, pc := .shiftTest }
  | .shiftTest => some { c with pc := if c.i ≤ c.tty.tail c.target then .shiftBody else .update }
  | .shiftBody =>
      let (x, tty) := c.tty.load c.target c.i
      some { c with tty := tty.store c.target (c.i - c.actualCopy) x, pc := .shiftIncr }
  | .shiftIncr => some { c with i := c.i + 1, pc := .shiftTest }
  | .update =>
      some { c with tty := c.tty.setTail c.target (c.tty.tail c.target - c.actualCopy), pc := .ret }
  | .ret => some { c with result := c.actualCopy, pc := .done }
  | .done => none

/-- The call ends with its last statement. -/
def step (nbytes : Int) (c : ReadCall) : ReadEvent → Option ReadCall
  | .statement => c.statement nbytes
  | .key k => if c.pc = .done then none else some { c with tty := c.tty.key k }

/-- The bytes that the call returns. -/
def returned (c : ReadCall) : List UInt8 := cells c.dest 0 c.result.toNat

/-- The keys of a run. -/
def keys : List ReadEvent → List UInt8
  | [] => []
  | .statement :: es => keys es
  | .key k :: es => k :: keys es

/-! ## Which keys are in time -/

/-- The moving loop is past index `k`. -/
def Passed (c : ReadCall) (k : Int) : Prop :=
  match c.pc with
  | .shiftTest | .shiftBody => k < c.i
  | .shiftIncr => k ≤ c.i
  | .update => True
  | _ => False

/-- How many characters are pending that the call does not return, once that is fixed. -/
def left (c : ReadCall) : Option Int :=
  match c.pc with
  | .target | .wait | .clear | .test | .length => none
  | .ret | .done => some (c.tty.tail c.target + 1)
  | _ => some (c.tty.tail c.target + 1 - c.actualCopy)

/-- A character is typed before the moving loop is past its cell, and a backspace erases no
character that the call returns; if the call returns none, any key will do. -/
def InTime (c : ReadCall) : ReadEvent → Prop
  | .statement => True
  | .key k =>
      (Tty.IsChar k → c.Passed (c.tty.tail c.tty.activeTty + 1) → c.actualCopy = 0) ∧
        (k = 8 → ∀ n ∈ c.left, 0 < n ∨ c.actualCopy = 0)

/-- There is room for the characters that are typed. -/
def Room (c : ReadCall) : ReadEvent → Prop
  | .statement => True
  | .key k => Tty.IsChar k → c.tty.tail c.tty.activeTty + 1 < maxBufferSize

instance (c : ReadCall) (k : Int) : Decidable (c.Passed k) := by
  unfold Passed
  split <;> infer_instance

instance (c : ReadCall) (e : ReadEvent) : Decidable (c.InTime e) :=
  match e with
  | .statement => inferInstanceAs (Decidable True)
  | .key k => inferInstanceAs (Decidable ((Tty.IsChar k → c.Passed _ → _) ∧ (k = 8 → _)))

instance (c : ReadCall) (e : ReadEvent) : Decidable (c.Room e) :=
  match e with
  | .statement => inferInstanceAs (Decidable True)
  | .key k => inferInstanceAs (Decidable (Tty.IsChar k → _))

end ReadCall

/-! ## A call without keys -/

namespace ReadCall

open Tty Relation

variable {nbytes : Int} {t : Nat}

/-- The call goes on by statements alone. -/
abbrev Runs (nbytes : Int) : ReadCall → ReadCall → Prop :=
  ReflTransGen fun c c' ↦ c.statement nbytes = some c'

/-- The copying loop. -/
theorem runs_copyLoop (nbytes r : Int) (t : Nat) (s : Tty) (dest : Int → UInt8) (k : Nat) (i : Int) :
    ∃ dest', Runs nbytes ⟨s, .copyTest, t, i, i + k, dest, r⟩
        ⟨(copyLoop t k i s).2, .terminate, t, i + k, i + k, dest', r⟩ ∧
      cells dest' i k = (copyLoop t k i s).1 ∧ ∀ j, j < i → dest' j = dest j := by
  induction k generalizing i s dest with
  | zero =>
      refine ⟨dest, .single ?_, rfl, fun _ _ ↦ rfl⟩
      simp only [statement, Nat.cast_zero, Int.add_zero]
      rw [if_neg (by omega)]
      rfl
  | succ k ih =>
      obtain ⟨dest', hruns, hcells, hlow⟩ :=
        ih (s.load t i).2 (Function.update dest i (s.load t i).1) (i + 1)
      have hsum : i + 1 + (k : Int) = i + (k + 1 : Nat) := by omega
      rw [hsum] at hruns
      refine ⟨dest', .head (b := ⟨s, .copyBody, t, i, i + (k + 1 : Nat), dest, r⟩) ?_
        (.head rfl (.head rfl hruns)), ?_, fun j hj ↦ ?_⟩
      · simp only [statement]
        rw [if_pos (by omega)]
      · rw [cells_succ', hcells, hlow i (Int.lt_succ i), Function.update_self]
        rfl
      · rw [hlow j (by omega), Function.update_of_ne (by omega)]

/-- The moving loop. -/
theorem runs_shiftLoop (nbytes r : Int) (s : Tty) (dest : Int → UInt8) (k : Nat) (i n : Int)
    (hlast : s.tail t + 1 = i + k) :
    Runs nbytes ⟨s, .shiftTest, t, i, n, dest, r⟩
      ⟨shiftLoop t n k i s, .update, t, i + k, n, dest, r⟩ := by
  induction k generalizing i s with
  | zero =>
      refine .single ?_
      simp only [statement, Nat.cast_zero, Int.add_zero]
      rw [if_neg (by omega)]
      rfl
  | succ k ih =>
      have hruns := ih ((s.load t i).2.store t (i - n) (s.load t i).1) (i + 1)
        (show s.tail t + 1 = i + 1 + k by omega)
      have hsum : i + 1 + (k : Int) = i + (k + 1 : Nat) := by omega
      rw [hsum] at hruns
      refine .head (b := ⟨s, .shiftBody, t, i, n, dest, r⟩) ?_ (.head rfl (.head rfl hruns))
      simp only [statement]
      rw [if_pos (by omega)]

/-- The wait ends, and the flag is cleared. -/
theorem runs_wait (nbytes r : Int) (t : Nat) (s : Tty) (dest : Int → UInt8) (i n : Int) (henter : s.enterStatus = true) :
    Runs nbytes ⟨s, .target, t, i, n, dest, r⟩
      ⟨{ s with enterStatus := false }, .test, s.activeTty, i, n, dest, r⟩ := by
  refine .head rfl (.head (b := ⟨s, .clear, s.activeTty, i, n, dest, r⟩) ?_ (.single rfl))
  simp only [statement, henter, if_true]

/-- From the copying loop to the end of the call. -/
theorem runs_copy (nbytes r : Int) (s : Tty) (dest : Int → UInt8) (k : Nat) (hk : k ≤ s.tail t + 1) :
    ∃ dest', Runs nbytes ⟨s, .copyTest, t, 0, k, dest, r⟩
        ⟨(shiftLoop t k (s.tail t + 1 - k).toNat k (copyLoop t k 0 s).2).setTail t (s.tail t - k),
          .done, t, s.tail t + 1, k, dest', k⟩ ∧
      cells dest' 0 (k + 1) = (copyLoop t k 0 s).1 ++ [0] := by
  obtain ⟨dest', hcopy, hcells, -⟩ := runs_copyLoop nbytes r t s dest k 0
  have htail : (copyLoop t k 0 s).2.tail t = s.tail t := by rw [copyLoop_eq]
  have hsum : (k : Int) + (s.tail t + 1 - k).toNat = s.tail t + 1 := by omega
  have hshift := runs_shiftLoop nbytes r (copyLoop t k 0 s).2 (Function.update dest' k 0)
    (s.tail t + 1 - k).toNat k k (by rw [htail, hsum])
  have hlast : (shiftLoop t k (s.tail t + 1 - k).toNat k (copyLoop t k 0 s).2).tail t =
      s.tail t := by
    rw [shiftLoop_tail, htail]
  rw [Int.zero_add] at hcopy
  rw [hsum] at hshift
  refine ⟨Function.update dest' k 0, hcopy.trans (.head rfl (.head rfl (hshift.trans
    (.head (b := ⟨(shiftLoop t k (s.tail t + 1 - k).toNat k (copyLoop t k 0 s).2).setTail t
      (s.tail t - k), .ret, t, s.tail t + 1, k, Function.update dest' k 0, r⟩) ?_
      (.single rfl))))), ?_⟩
  · simp only [statement, hlast]
  · have happend := cells_succ_update dest' 0 k 0
    rwa [Int.zero_add, hcells] at happend

/-- **A call that is not interrupted is one step of the driver.** -/
theorem runs_terminalRead (hn : 0 ≤ nbytes) {c : ReadCall} (hpc : c.pc = .target)
    (henter : c.tty.enterStatus = true) (htail : -1 ≤ c.tty.tail c.tty.activeTty) :
    ∃ c', Runs nbytes c c' ∧ c'.pc = .done ∧
      c'.tty = (terminalRead c.tty.activeTty nbytes c.tty).2 ∧
      c'.result = (terminalRead c.tty.activeTty nbytes c.tty).1.ret ∧
      cells c'.dest 0 (terminalRead c.tty.activeTty nbytes c.tty).1.stored.length =
        (terminalRead c.tty.activeTty nbytes c.tty).1.stored := by
  obtain ⟨s, pc, t, i, n, dest, r⟩ := c
  subst hpc
  dsimp only at henter htail ⊢
  have hwait := runs_wait nbytes r t s dest i n henter
  by_cases hempty : s.tail s.activeTty = -1
  · rw [terminalRead_empty hempty]
    refine ⟨⟨{ s with enterStatus := false }, .done, s.activeTty, i, n, dest, 0⟩,
      hwait.trans (.single ?_), rfl, rfl, rfl, rfl⟩
    simp only [statement, hempty, if_true]
  · obtain ⟨k, hk⟩ : ∃ k : Nat, s.actualCopy s.activeTty nbytes = k :=
      ⟨_, actualCopy_eq htail hn⟩
    have hle : (k : Int) ≤ s.tail s.activeTty + 1 := by
      rw [← hk, Tty.actualCopy]
      split <;> omega
    have hread := terminalRead_eq_loops (n := nbytes) hempty
    rw [hk, Int.toNat_natCast] at hread
    obtain ⟨dest', hcopy, hcells⟩ := runs_copy nbytes r { s with enterStatus := false } dest k hle
    have hlen : ((copyLoop s.activeTty k 0 { s with enterStatus := false }).1 ++ [0]).length =
        k + 1 := by
      rw [copyLoop_eq, List.length_append, length_cells, List.length_singleton]
    have hk' : ({ s with enterStatus := false } : Tty).actualCopy s.activeTty nbytes = k := hk
    have htest : Runs nbytes
        ⟨{ s with enterStatus := false }, .test, s.activeTty, i, n, dest, r⟩
        ⟨{ s with enterStatus := false }, .copyTest, s.activeTty, 0, k, dest, r⟩ := by
      refine .head (b := ⟨{ s with enterStatus := false }, .length, s.activeTty, i, n, dest, r⟩) ?_
        (.head (b := ⟨{ s with enterStatus := false }, .copyInit, s.activeTty, i, k, dest, r⟩) ?_
          (.single rfl))
      · simp only [statement, if_neg hempty]
      · simp only [statement, hk']
    rw [hread, hlen]
    exact ⟨_, hwait.trans (htest.trans hcopy), rfl, rfl, rfl, hcells⟩

end ReadCall

/-! ## Where the characters are -/

namespace Tty

/-- The characters `l` are in the buffer of terminal `t`: those from index `d` on that were
`passed` lie `d` cells down, the others in their places. -/
structure Placed (s : Tty) (t : Nat) (l : List UInt8) (d : Int) (passed : Int → Prop) : Prop where
  length : (l.length : Int) = s.tail t + 1
  moved : ∀ k : Nat, k < l.length → d ≤ k → passed k → l[k]? = some (s.memory (cell t (k - d)))
  rest : ∀ k : Nat, k < l.length → d ≤ k → ¬ passed k → l[k]? = some (s.memory (cell t k))

namespace Placed

variable {s : Tty} {t : Nat} {l : List UInt8} {d : Int} {passed : Int → Prop}

/-- All in their places is what is pending. -/
theorem pending_eq (h : Placed s t l 0 fun _ ↦ False) : s.pending t = l := by
  refine List.ext_getElem? fun k ↦ ?_
  have hlen : (s.tail t + 1).toNat = l.length := by
    have := h.length
    omega
  rw [pending, hlen]
  by_cases hk : k < l.length
  · rw [getElem?_cells _ _ hk, h.rest k hk (Int.natCast_nonneg k) id]
    simp only [cell, Int.add_zero]
  · rw [List.getElem?_eq_none (by rw [length_cells]; omega), List.getElem?_eq_none (by omega)]

theorem of_pending (h : -1 ≤ s.tail t) : Placed s t (s.pending t) 0 fun _ ↦ False where
  length := by
    rw [length_pending, Int.toNat_of_nonneg (by omega)]
  moved _ _ _ hp := hp.elim
  rest k hk _ _ := by
    rw [length_pending] at hk
    rw [pending, getElem?_cells _ _ hk]
    simp only [cell, Int.add_zero]

theorem cell_ne {t : Nat} {i j : Int} (h : i ≠ j) : cell t i ≠ cell t j :=
  fun heq ↦ h (Int.add_left_cancel heq)

/-- A character is typed. -/
theorem char (h : Placed s s.activeTty l d passed) {c : UInt8} (hc : IsChar c) (hd : 0 ≤ d)
    (hroom : s.tail s.activeTty < maxBufferSize)
    (hpassed : passed (s.tail s.activeTty + 1) → d = 0) :
    Placed (s.key c) s.activeTty (l ++ [c]) d passed := by
  have hlen := h.length
  have hlast {k : Nat} (hk : k < (l ++ [c]).length) (hge : ¬ k < l.length) :
      (l ++ [c])[k]? = some c ∧ (k : Int) = s.tail s.activeTty + 1 := by
    rw [List.length_append, List.length_singleton] at hk
    have hk : k = l.length := by omega
    exact ⟨hk ▸ List.getElem?_concat_length, by omega⟩
  rw [key_char hc hroom]
  refine ⟨?_, fun k hk hdk hp ↦ ?_, fun k hk hdk hp ↦ ?_⟩
  · rw [List.length_append, List.length_singleton, Nat.cast_add, hlen, Nat.cast_one]
    simp only [store, setTail_tail_self]
  · by_cases hlt : k < l.length
    · rw [List.getElem?_append_left hlt, h.moved k hlt hdk hp]
      simp only [store, setTail]
      rw [Function.update_of_ne (cell_ne (by omega))]
    · obtain ⟨hget, hidx⟩ := hlast hk hlt
      rw [hget, hidx, hpassed (hidx ▸ hp), Int.sub_zero]
      simp only [store, Function.update_self]
  · by_cases hlt : k < l.length
    · rw [List.getElem?_append_left hlt, h.rest k hlt hdk hp]
      simp only [store, setTail]
      rw [Function.update_of_ne (cell_ne (by omega))]
    · obtain ⟨hget, hidx⟩ := hlast hk hlt
      rw [hget, hidx]
      simp only [store, Function.update_self]

/-- A backspace. -/
theorem bksp (h : Placed s s.activeTty l d passed) :
    Placed (s.key 8) s.activeTty l.dropLast d passed := by
  have hlen := h.length
  have hget {k : Nat} (hk : k < l.dropLast.length) : k < l.length ∧ l.dropLast[k]? = l[k]? := by
    rw [List.length_dropLast] at hk
    exact ⟨by omega, by rw [List.getElem?_dropLast, if_pos hk]⟩
  rw [key_bksp]
  split
  · refine ⟨?_, fun k hk hdk hp ↦ ?_, fun k hk hdk hp ↦ ?_⟩
    · rw [setTail_tail_self, List.length_dropLast]
      omega
    · rw [(hget hk).2]
      exact h.moved k (hget hk).1 hdk hp
    · rw [(hget hk).2]
      exact h.rest k (hget hk).1 hdk hp
  · have hnil : l = [] := List.eq_nil_of_length_eq_zero (by omega)
    subst hnil
    exact h

/-- A key is pressed. -/
theorem key (h : Placed s s.activeTty l d passed) {c : UInt8} (hd : 0 ≤ d)
    (hroom : IsChar c → s.tail s.activeTty + 1 < maxBufferSize)
    (hpassed : IsChar c → passed (s.tail s.activeTty + 1) → d = 0) :
    Placed (s.key c) s.activeTty (edit c l) d passed := by
  rcases bksp_or_enter_or_isChar c with rfl | rfl | hc
  · exact h.bksp
  · rw [key_enter]
    exact ⟨h.length, h.moved, h.rest⟩
  · rw [edit_char hc]
    exact h.char hc hd (Int.lt_of_le_of_lt (Int.le_add_one (Int.le_refl _)) (hroom hc))
      (hpassed hc)

/-- The next character is moved down. -/
theorem move {i : Int} (h : Placed s t l d fun k ↦ k < i) (hd : 0 ≤ d) :
    Placed ((s.load t i).2.store t (i - d) (s.load t i).1) t l d fun k ↦ k ≤ i := by
  refine ⟨h.length, fun k hk hdk hki ↦ ?_, fun k hk hdk hki ↦ ?_⟩
  · simp only [load, store]
    rcases Int.lt_or_eq_of_le hki with hlt | rfl
    · rw [Function.update_of_ne (cell_ne (by omega))]
      exact h.moved k hk hdk hlt
    · rw [Function.update_self]
      exact h.rest k hk hdk (Int.lt_irrefl _)
  · -- it is stored below the characters that are still to be moved
    have hlt : i < k := Int.not_le.mp hki
    simp only [load, store]
    rw [Function.update_of_ne (cell_ne (by omega))]
    exact h.rest k hk hdk (Int.not_lt.mpr (Int.le_of_lt hlt))

end Placed

end Tty

/-! ## The call keeps what was typed -/

namespace ReadCall

open Tty

/-- How far down the characters are moved. -/
def shift (c : ReadCall) : Int :=
  match c.pc with
  | .shiftTest | .shiftBody | .shiftIncr | .update => c.actualCopy
  | _ => 0

/-- How many characters have been copied. -/
def count (c : ReadCall) : Int :=
  match c.pc with
  | .copyInit => 0
  | .copyTest | .copyBody => c.i
  | .copyIncr => c.i + 1
  | .done => c.result
  | _ => c.actualCopy

/-- The call has not looked at the characters yet: `l` is pending. -/
structure Waiting (c : ReadCall) (l : List UInt8) : Prop where
  target : c.pc = .target ∨ c.target = c.tty.activeTty
  placed : Placed c.tty c.tty.activeTty l 0 fun _ ↦ False

/-- The call has fixed how much of `l` it returns. -/
structure Reading (c : ReadCall) (l : List UInt8) : Prop where
  target : c.target = c.tty.activeTty
  placed : Placed c.tty c.tty.activeTty l c.shift c.Passed
  count_nonneg : 0 ≤ c.count
  count_le : c.count ≤ c.actualCopy
  le_length : c.actualCopy ≤ l.length
  copied : cells c.dest 0 c.count.toNat = l.take c.count.toNat
  body : c.pc = .copyBody → c.i < c.actualCopy
  last : c.pc = .terminate → c.actualCopy ≤ c.i

/-- The call returns the front of `l`, and the rest is pending. -/
structure Returning (c : ReadCall) (l : List UInt8) : Prop where
  target : c.target = c.tty.activeTty
  placed : Placed c.tty c.tty.activeTty (l.drop c.count.toNat) 0 fun _ ↦ False
  count_nonneg : 0 ≤ c.count
  count_le : c.count ≤ l.length
  copied : cells c.dest 0 c.count.toNat = l.take c.count.toNat

/-- Whatever the next statement is, `l` is kept. -/
def Keeps (c : ReadCall) (l : List UInt8) : Prop :=
  match c.pc with
  | .target | .wait | .clear | .test | .length => c.Waiting l
  | .ret | .done => c.Returning l
  | _ => c.Reading l

variable {c c' : ReadCall} {l : List UInt8}

/-- The result. -/
theorem Returning.returned_append (h : c.Returning l) (hpc : c.pc = .done) :
    c.returned ++ c.tty.pending c.target = l := by
  have hcount : c.count = c.result := by rw [count, hpc]
  rw [returned, ← hcount, h.copied, h.target, h.placed.pending_eq, List.take_append_drop]

/-! ### Statements -/

section Statements

variable {s : Tty} {t : Nat} {i n r nbytes : Int} {dest : Int → UInt8}

/-- `actual_copy` is computed. -/
theorem Waiting.length (h : Waiting ⟨s, .length, t, i, n, dest, r⟩ l) (hn : 0 ≤ nbytes) :
    Reading ⟨s, .copyInit, t, i, s.actualCopy t nbytes, dest, r⟩ l := by
  obtain rfl : t = s.activeTty := h.target.resolve_left nofun
  have hplaced : Placed s s.activeTty l 0 fun _ ↦ False := h.placed
  have hlen := hplaced.length
  have hcopy := actualCopy_eq (s := s) (t := s.activeTty) (by omega) hn
  rw [hplaced.pending_eq] at hcopy
  exact ⟨rfl, hplaced, Int.le_refl 0, hcopy ▸ Int.natCast_nonneg _,
    hcopy ▸ Int.ofNat_le.mpr (Nat.min_le_right _ _), rfl, nofun, nofun⟩

/-- A character is copied. -/
theorem Reading.copyBody (h : Reading ⟨s, .copyBody, t, i, n, dest, r⟩ l) :
    Reading ⟨(s.load t i).2, .copyIncr, t, i, n, Function.update dest i (s.load t i).1, r⟩ l := by
  obtain rfl : t = s.activeTty := h.target
  have hplaced : Placed s s.activeTty l 0 fun _ ↦ False := h.placed
  have hlt : i < n := h.body rfl
  have hle : n ≤ l.length := h.le_length
  obtain ⟨k, rfl⟩ : ∃ k : Nat, i = k := Int.eq_ofNat_of_zero_le h.count_nonneg
  have hget := hplaced.rest k (by omega) (Int.natCast_nonneg k) id
  refine ⟨rfl, ⟨hplaced.length, hplaced.moved, hplaced.rest⟩, Int.le_add_one h.count_nonneg, hlt,
    hle, ?_, nofun, nofun⟩
  have hcopied : cells dest 0 k = l.take k := h.copied
  show cells (Function.update dest k (s.memory (cell s.activeTty k))) 0 (k + 1) = l.take (k + 1)
  have happend := cells_succ_update dest 0 k (s.memory (cell s.activeTty k))
  rw [Int.zero_add] at happend
  rw [happend, hcopied, List.take_add_one, hget, Option.toList_some]

/-- The string in the caller's buffer is terminated. -/
theorem Reading.terminate (h : Reading ⟨s, .terminate, t, i, n, dest, r⟩ l) :
    Reading ⟨s, .shiftInit, t, i, n, Function.update dest i 0, r⟩ l := by
  refine ⟨h.target, h.placed, h.count_nonneg, h.count_le, h.le_length, ?_, nofun, nofun⟩
  have hlast : n ≤ i := h.last rfl
  have hcount : 0 ≤ n := h.count_nonneg
  have hcopied : cells dest 0 n.toNat = l.take n.toNat := h.copied
  show cells (Function.update dest i 0) 0 n.toNat = l.take n.toNat
  rw [cells_update_of_not_mem 0 (Or.inr (by omega)), hcopied]

/-- The moving loop starts behind the characters that are returned. -/
theorem Reading.shiftInit (h : Reading ⟨s, .shiftInit, t, i, n, dest, r⟩ l) :
    Reading ⟨s, .shiftTest, t, n, n, dest, r⟩ l := by
  have hplaced : Placed s s.activeTty l 0 fun _ ↦ False := h.placed
  refine ⟨h.target, ⟨hplaced.length, fun k _ hnk hk ↦ ?_, fun k hk _ _ ↦ ?_⟩, h.count_nonneg,
    h.count_le, h.le_length, h.copied, nofun, nofun⟩
  · exact absurd hk (Int.not_lt.mpr hnk)
  · exact hplaced.rest k hk (Int.natCast_nonneg k) id

/-- The moving loop has come to the last character. -/
theorem Reading.shiftEnd (h : Reading ⟨s, .shiftTest, t, i, n, dest, r⟩ l) (hi : ¬ i ≤ s.tail t) :
    Reading ⟨s, .update, t, i, n, dest, r⟩ l := by
  obtain rfl : t = s.activeTty := h.target
  have hplaced : Placed s s.activeTty l n fun k ↦ k < i := h.placed
  refine ⟨h.target, ⟨hplaced.length, fun k hk hnk _ ↦ ?_, fun k _ _ hno ↦ absurd trivial hno⟩,
    h.count_nonneg, h.count_le, h.le_length, h.copied, nofun, nofun⟩
  have hlen := hplaced.length
  exact hplaced.moved k hk hnk (show (k : Int) < i by omega)

/-- A character is moved. -/
theorem Reading.shiftBody (h : Reading ⟨s, .shiftBody, t, i, n, dest, r⟩ l) :
    Reading ⟨(s.load t i).2.store t (i - n) (s.load t i).1, .shiftIncr, t, i, n, dest, r⟩ l := by
  obtain rfl : t = s.activeTty := h.target
  have hplaced : Placed s s.activeTty l n fun k ↦ k < i := h.placed
  exact ⟨rfl, hplaced.move h.count_nonneg, h.count_nonneg, h.count_le, h.le_length, h.copied,
    nofun, nofun⟩

/-- `actual_copy` is taken off `tail`. -/
theorem Reading.update (h : Reading ⟨s, .update, t, i, n, dest, r⟩ l) :
    Returning ⟨s.setTail t (s.tail t - n), .ret, t, i, n, dest, r⟩ l := by
  obtain rfl : t = s.activeTty := h.target
  have hplaced : Placed s s.activeTty l n fun _ ↦ True := h.placed
  have hlen := hplaced.length
  have hn : 0 ≤ n := h.count_nonneg
  have hle : n ≤ l.length := h.le_length
  refine ⟨rfl, ⟨?_, fun _ _ _ hno ↦ hno.elim, fun k hk _ _ ↦ ?_⟩, hn, hle, h.copied⟩
  · show ((l.drop n.toNat).length : Int) = (s.setTail s.activeTty _).tail s.activeTty + 1
    rw [setTail_tail_self, List.length_drop]
    omega
  · show (l.drop n.toNat)[k]? = some (s.memory (cell s.activeTty k))
    have hk : k < (l.drop n.toNat).length := hk
    rw [List.length_drop] at hk
    have hmoved := hplaced.moved (n.toNat + k) (by omega) (by omega) trivial
    rw [List.getElem?_drop, hmoved, show ((n.toNat + k : Nat) : Int) - n = k by omega]

end Statements

/-- **One statement keeps what was typed.** -/
theorem Keeps.statement (h : c.Keeps l) {nbytes : Int} (hn : 0 ≤ nbytes)
    (hs : c.statement nbytes = some c') : c'.Keeps l := by
  obtain ⟨s, pc, t, i, n, dest, r⟩ := c
  cases pc with
  | target =>
      obtain rfl := Option.some.inj hs
      exact Waiting.mk (Or.inr rfl) h.placed
  | wait =>
      obtain rfl := Option.some.inj hs
      have htarget : t = s.activeTty := h.target.resolve_left nofun
      dsimp only
      split
      · exact Waiting.mk (Or.inr htarget) h.placed
      · exact Waiting.mk (Or.inr htarget) h.placed
  | clear =>
      obtain rfl := Option.some.inj hs
      have htarget : t = s.activeTty := h.target.resolve_left nofun
      exact Waiting.mk (Or.inr htarget) ⟨h.placed.length, h.placed.moved, h.placed.rest⟩
  | test =>
      obtain rfl := Option.some.inj hs
      have htarget : t = s.activeTty := h.target.resolve_left nofun
      split
      · exact Returning.mk htarget h.placed (Int.le_refl 0) (Int.natCast_nonneg _) rfl
      · exact Waiting.mk (Or.inr htarget) h.placed
  | length =>
      obtain rfl := Option.some.inj hs
      exact Waiting.length h hn
  | copyInit =>
      obtain rfl := Option.some.inj hs
      exact Reading.mk h.target h.placed h.count_nonneg h.count_le h.le_length h.copied nofun nofun
  | copyTest =>
      obtain rfl := Option.some.inj hs
      have hle : i ≤ n := h.count_le
      dsimp only
      split
      · rename_i hlt
        exact Reading.mk h.target h.placed h.count_nonneg h.count_le h.le_length h.copied
          (fun _ ↦ Int.lt_of_le_sub_one hlt) nofun
      · rename_i hge
        obtain rfl : i = n := by omega
        exact Reading.mk h.target h.placed h.count_nonneg h.count_le h.le_length h.copied nofun
          fun _ ↦ Int.le_refl _
  | copyBody =>
      obtain rfl := Option.some.inj hs
      exact Reading.copyBody h
  | copyIncr =>
      obtain rfl := Option.some.inj hs
      exact Reading.mk h.target h.placed h.count_nonneg h.count_le h.le_length h.copied nofun nofun
  | terminate =>
      obtain rfl := Option.some.inj hs
      exact Reading.terminate h
  | shiftInit =>
      obtain rfl := Option.some.inj hs
      exact Reading.shiftInit h
  | shiftTest =>
      obtain rfl := Option.some.inj hs
      dsimp only
      split
      · exact Reading.mk h.target h.placed h.count_nonneg h.count_le h.le_length h.copied nofun nofun
      · rename_i hi
        exact Reading.shiftEnd h hi
  | shiftBody =>
      obtain rfl := Option.some.inj hs
      exact Reading.shiftBody h
  | shiftIncr =>
      obtain rfl := Option.some.inj hs
      have hplaced : Placed s s.activeTty l n fun k ↦ k ≤ i := h.placed
      refine Reading.mk h.target ⟨hplaced.length, fun k hk hnk hp ↦ ?_, fun k hk hnk hp ↦ ?_⟩
        h.count_nonneg h.count_le h.le_length h.copied nofun nofun
      · exact hplaced.moved k hk hnk (Int.lt_add_one_iff.mp hp)
      · exact hplaced.rest k hk hnk fun hle ↦ hp (Int.lt_add_one_iff.mpr hle)
  | update =>
      obtain rfl := Option.some.inj hs
      exact Reading.update h
  | ret =>
      obtain rfl := Option.some.inj hs
      exact Returning.mk h.target h.placed h.count_nonneg h.count_le h.copied
  | done => cases hs

/-! ### Keys -/

variable {k : UInt8}

/-- The front of the characters is not edited. -/
theorem edit_eq_take_append {m : Nat} (h : k = 8 → m < l.length ∨ m = 0) :
    edit k l = l.take m ++ edit k (l.drop m) := by
  have hsplit := edit_append (c := k) (l.take m) (l.drop m) fun hk ↦ ?_
  · rwa [List.take_append_drop] at hsplit
  · rcases h hk with hlt | rfl
    · exact Or.inl (List.ne_nil_of_length_pos (by rw [List.length_drop]; omega))
    · exact Or.inr List.take_zero

theorem Waiting.key (h : c.Waiting l) (hroom : c.Room (.key k)) :
    Waiting { c with tty := c.tty.key k } (edit k l) := by
  refine ⟨h.target.imp_right fun heq ↦ heq.trans (key_activeTty c.tty k).symm, ?_⟩
  show Placed (c.tty.key k) (c.tty.key k).activeTty _ _ _
  rw [key_activeTty]
  exact h.placed.key (Int.le_refl 0) hroom fun _ hno ↦ hno.elim

theorem Reading.key (h : c.Reading l) (hroom : c.Room (.key k)) (htime : c.InTime (.key k))
    (hleft : c.left = some (c.tty.tail c.target + 1 - c.actualCopy)) :
    Reading { c with tty := c.tty.key k } (edit k l) := by
  have hlen := h.placed.length
  have hnonneg : 0 ≤ c.actualCopy := Int.le_trans h.count_nonneg h.count_le
  have hle := h.le_length
  have hshift : c.shift = c.actualCopy ∨ c.shift = 0 := by
    rw [shift]
    split
    all_goals first | exact Or.inl rfl | exact Or.inr rfl
  have hsplit : edit k l = l.take c.actualCopy.toNat ++ edit k (l.drop c.actualCopy.toNat) := by
    refine edit_eq_take_append fun hk ↦ ?_
    have := htime.2 hk _ hleft
    rw [h.target] at this
    omega
  have hfront : (l.take c.actualCopy.toNat).length = c.actualCopy.toNat :=
    List.length_take_of_le (by omega)
  refine ⟨h.target.trans (key_activeTty c.tty k).symm, ?_, h.count_nonneg, h.count_le, ?_, ?_,
    h.body, h.last⟩
  · show Placed (c.tty.key k) (c.tty.key k).activeTty _ c.shift c.Passed
    rw [key_activeTty]
    refine h.placed.key (by omega) hroom fun hc hp ↦ ?_
    have := htime.1 hc hp
    omega
  · show c.actualCopy ≤ (edit k l).length
    rw [hsplit, List.length_append, hfront]
    omega
  · show cells c.dest 0 c.count.toNat = (edit k l).take c.count.toNat
    have hcount : c.count.toNat ≤ (l.take c.actualCopy.toNat).length := by
      have := h.count_le
      omega
    rw [hsplit, List.take_append_of_le_length hcount, List.take_take, h.copied]
    congr 1
    omega

theorem Returning.key (h : c.Returning l) (hroom : c.Room (.key k)) (htime : c.InTime (.key k))
    (hpc : c.pc = .ret) : Returning { c with tty := c.tty.key k } (edit k l) := by
  have hlen := h.placed.length
  have hcopy : c.count = c.actualCopy := by rw [count, hpc]
  have hleft : c.left = some (c.tty.tail c.target + 1) := by rw [left, hpc]
  have hsplit : edit k l = l.take c.count.toNat ++ edit k (l.drop c.count.toNat) := by
    refine edit_eq_take_append fun hk ↦ ?_
    have := htime.2 hk _ hleft
    rw [h.target, ← hlen, List.length_drop] at this
    omega
  have hle := h.count_le
  have hfront : (l.take c.count.toNat).length = c.count.toNat :=
    List.length_take_of_le (by omega)
  refine ⟨h.target.trans (key_activeTty c.tty k).symm, ?_, h.count_nonneg, ?_, ?_⟩
  · show Placed (c.tty.key k) (c.tty.key k).activeTty ((edit k l).drop c.count.toNat) 0 _
    rw [key_activeTty, hsplit, List.drop_left' hfront]
    exact h.placed.key (Int.le_refl 0) hroom fun _ hno ↦ hno.elim
  · show c.count ≤ (edit k l).length
    rw [hsplit, List.length_append, hfront]
    omega
  · show cells c.dest 0 c.count.toNat = (edit k l).take c.count.toNat
    rw [hsplit, List.take_left' hfront, h.copied]

/-- **A key in time is kept.** -/
theorem Keeps.key (h : c.Keeps l) (hroom : c.Room (.key k)) (htime : c.InTime (.key k))
    (hpc : c.pc ≠ .done) : Keeps { c with tty := c.tty.key k } (edit k l) := by
  obtain ⟨s, pc, t, i, n, dest, r⟩ := c
  cases pc with
  | target | wait | clear | test | length => exact Waiting.key h hroom
  | ret => exact Returning.key h hroom htime rfl
  | done => exact absurd rfl hpc
  | _ => exact Reading.key h hroom htime rfl

/-! ### Whole calls -/

variable {nbytes : Int}

theorem Keeps.step (h : c.Keeps l) (hn : 0 ≤ nbytes) {e : ReadEvent} (hroom : c.Room e)
    (htime : c.InTime e) (hs : c.step nbytes e = some c') :
    c'.Keeps ((keys [e]).foldl (fun l k ↦ edit k l) l) := by
  cases e with
  | statement => exact h.statement hn hs
  | key k =>
      rw [ReadCall.step] at hs
      split at hs
      · cases hs
      · rename_i hpc
        obtain rfl := Option.some.inj hs
        exact h.key hroom htime hpc

theorem keys_cons (e : ReadEvent) (es : List ReadEvent) : keys (e :: es) = keys [e] ++ keys es := by
  cases e with
  | statement => rfl
  | key k => rfl

/-- A run of the call, with the keys pressed in it. -/
theorem Keeps.run (hn : 0 ≤ nbytes) {es : List ReadEvent} (h : c.Keeps l)
    (hes : AllSteps (ReadCall.step nbytes) (fun c e ↦ c.Room e ∧ c.InTime e) c es)
    (hexec : exec (ReadCall.step nbytes) c es = some c') :
    c'.Keeps ((keys es).foldl (fun l k ↦ edit k l) l) := by
  induction es generalizing c l with
  | nil => exact Option.some.inj hexec ▸ h
  | cons e es ih =>
      obtain ⟨c₁, hc₁, hexec⟩ := exec_cons_eq_some.mp hexec
      rw [keys_cons, List.foldl_append]
      exact ih (h.step hn hes.1.1 hes.1.2 hc₁) (hes.2 c₁ hc₁) hexec

theorem step_activeTty {e : ReadEvent} (hs : c.step nbytes e = some c') :
    c'.tty.activeTty = c.tty.activeTty := by
  cases e with
  | key k =>
      rw [ReadCall.step] at hs
      split at hs
      · cases hs
      · obtain rfl := Option.some.inj hs
        exact key_activeTty c.tty k
  | statement =>
      obtain ⟨s, pc, t, i, n, dest, r⟩ := c
      cases pc with
      | done => cases hs
      | test =>
          obtain rfl := Option.some.inj hs
          split <;> rfl
      | _ =>
          obtain rfl := Option.some.inj hs
          rfl

theorem exec_activeTty {es : List ReadEvent} (hexec : exec (ReadCall.step nbytes) c es = some c') :
    c'.tty.activeTty = c.tty.activeTty := by
  induction es generalizing c with
  | nil => exact Option.some.inj hexec ▸ rfl
  | cons e es ih =>
      obtain ⟨c₁, hc₁, hexec⟩ := exec_cons_eq_some.mp hexec
      exact (ih hexec).trans (step_activeTty hc₁)

/-- **A call keeps what was typed.**  However keys are pressed between the statements of a call,
if they are in time, then what the call returns and what it leaves in the buffer is what was
pending before, edited by the keys in their order. -/
theorem read_keeps_typed (nbytes : Int) (hn : 0 ≤ nbytes) (c : ReadCall) (hpc : c.pc = .target)
    (htail : -1 ≤ c.tty.tail c.tty.activeTty) (es : List ReadEvent)
    (hes : AllSteps (step nbytes) (fun c e ↦ c.Room e ∧ c.InTime e) c es) (c' : ReadCall)
    (hexec : exec (step nbytes) c es = some c') (hdone : c'.pc = .done) :
    c'.returned ++ c'.tty.pending c.tty.activeTty =
      (keys es).foldl (fun l k ↦ edit k l) (c.tty.pending c.tty.activeTty) := by
  have hstart : c.Keeps (c.tty.pending c.tty.activeTty) := by
    rw [Keeps, hpc]
    exact ⟨Or.inl hpc, Placed.of_pending htail⟩
  have hend := hstart.run hn hes hexec
  rw [Keeps, hdone] at hend
  have hresult := hend.returned_append hdone
  rwa [hend.target, exec_activeTty hexec] at hresult

/-- A call on the first terminal, where a line with one character was typed. -/
def afterLine : ReadCall :=
  ⟨(Tty.boot.terminalOpen.key 0x61).key 0x0a, .target, 0, 0, 0, fun _ ↦ 0, 0⟩

/-- A character is typed while the first one is copied, and it is moved to the front. -/
theorem read_keeps_typed_in_time :
    ∃ c', exec (step 128) afterLine
        (List.replicate 7 .statement ++ .key 0x62 :: List.replicate 11 .statement) = some c' ∧
      c'.pc = .done ∧ c'.returned ++ c'.tty.pending 0 = [0x61, 0x62] := by
  obtain ⟨c', hexec, hdone⟩ : ∃ c', exec (step 128) afterLine
      (List.replicate 7 .statement ++ .key 0x62 :: List.replicate 11 .statement) = some c' ∧
      c'.pc = .done := ⟨_, rfl, rfl⟩
  have htimes : AllSteps (step 128) (fun c e ↦ c.Room e ∧ c.InTime e) afterLine
      (List.replicate 7 .statement ++ .key 0x62 :: List.replicate 11 .statement) :=
    AllSteps.of_decide (by decide)
  exact ⟨c', hexec, hdone,
    read_keeps_typed 128 (by decide) afterLine rfl (by decide) _ htimes c' hexec hdone⟩

/-- A character is typed right before `tail` is changed: it is lost, and the first one is found
again. -/
theorem read_loses_typed :
    ∃ c', exec (step 128) afterLine
        (List.replicate 13 .statement ++ .key 0x62 :: List.replicate 2 .statement) = some c' ∧
      AllSteps (step 128) Room afterLine
        (List.replicate 13 .statement ++ .key 0x62 :: List.replicate 2 .statement) ∧
      c'.pc = .done ∧ c'.returned = [0x61] ∧ c'.tty.pending 0 = [0x61] ∧
      ¬ c'.returned ++ c'.tty.pending 0 = [0x61, 0x62] := by
  have hroom : AllSteps (step 128) Room afterLine
      (List.replicate 13 .statement ++ .key 0x62 :: List.replicate 2 .statement) :=
    AllSteps.of_decide (by decide)
  obtain ⟨c', hexec, hdone, hreturned, hpending⟩ : ∃ c', exec (step 128) afterLine
      (List.replicate 13 .statement ++ .key 0x62 :: List.replicate 2 .statement) = some c' ∧
      c'.pc = .done ∧ c'.returned = [0x61] ∧ c'.tty.pending 0 = [0x61] := ⟨_, rfl, rfl, rfl, rfl⟩
  refine ⟨c', hexec, hroom, hdone, hreturned, hpending, ?_⟩
  rw [hreturned, hpending]
  decide

end ReadCall

end Illinix
