import Illinix.Base.Segment
import Illinix.Files.Descriptor
import Illinix.Process.Kernel
import Illinix.Screen.Text

/-!
# The terminal driver

`terminal.c` keeps the characters typed on each terminal in `terminal_buffer`, with `tail`
the index of the last one, `-1` when there is none.  The three buffers lie one behind the
other, so memory is taken from `terminal_buffer` on and an index past the end of a buffer
falls into the next one.  The accesses go through `load` and `store`, which note the index in
`used`; no routine reads that list.

`terminal_write` is called by the keyboard handler with one character and descriptor 0, and by
the `write` system call.  `terminal_read` is taken here as one step from the moment its wait
for `enter_status` ends.  With a negative size the arithmetic on `tail` may overflow; the loop
before it has by then used a negative index.

`pending` is what the buffer stands for, and the last section says what the driver does to it.
-/

namespace Illinix

open Base

def maxBufferSize : Int := 1025

/-- The bytes that a call of `read` returns: as many as its result says. -/
def ReadResult.returned (r : ReadResult) : List UInt8 := r.stored.take r.ret.toNat

/-- The variables of the driver, and `active_tty`. -/
structure Tty where
  /-- The bytes from `terminal_buffer` on. -/
  memory : Int → UInt8
  tail : Nat → Int
  enterStatus : Bool
  activeTty : Nat
  /-- The indices at which a buffer was accessed. -/
  used : List Int

namespace Tty

/-- Where `terminal_buffer[t][i]` lies. -/
def cell (t : Nat) (i : Int) : Int := t * maxBufferSize + i

def load (s : Tty) (t : Nat) (i : Int) : UInt8 × Tty :=
  (s.memory (cell t i), { s with used := i :: s.used })

def store (s : Tty) (t : Nat) (i : Int) (c : UInt8) : Tty :=
  { s with memory := Function.update s.memory (cell t i) c, used := i :: s.used }

def setTail (s : Tty) (t : Nat) (i : Int) : Tty := { s with tail := Function.update s.tail t i }

@[simp] theorem setTail_tail_self (s : Tty) (t : Nat) (i : Int) : (s.setTail t i).tail t = i :=
  Function.update_self _ _ _

theorem setTail_tail_of_ne (s : Tty) {t t' : Nat} (h : t' ≠ t) (i : Int) :
    (s.setTail t i).tail t' = s.tail t' := Function.update_of_ne h _ _

/-! ## Writing -/

/-- What `terminal_write` leaves, returns and puts on the screen. -/
structure Written where
  tty : Tty
  ret : Int
  output : List ScreenOp

/-- The loop of `terminal_write`; `nbytes` is what it returns at its end. -/
def writeLoop (fd nbytes : Int) : List UInt8 → Tty → Written
  | [], s => ⟨s, nbytes, []⟩
  | input :: rest, s =>
      if input = 8 ∧ fd ≠ 1 then
        if s.tail s.activeTty > -1 ∧ fd ≠ 1 then
          ⟨s.setTail s.activeTty (s.tail s.activeTty - 1), 0, [.bksp]⟩
        else ⟨s, 0, []⟩
      else if input = 0x0a ∧ fd ≠ 1 then ⟨{ s with enterStatus := true }, 1, [.putc input]⟩
      else
        let s :=
          if s.tail s.activeTty < maxBufferSize ∧ fd ≠ 1 then
            let s := s.setTail s.activeTty (s.tail s.activeTty + 1)
            s.store s.activeTty (s.tail s.activeTty) input
          else s
        let w := writeLoop fd nbytes rest s
        { w with output := .putc input :: w.output }

/-- `terminal_write`, on the `nbytes` bytes from `buf` on. -/
def terminalWrite (fd : Int) (buf : List UInt8) (s : Tty) : Written :=
  writeLoop fd buf.length buf s

/-- `terminal_write(0, &character, 1)`, as the keyboard handler calls it. -/
def key (c : UInt8) (s : Tty) : Tty := (terminalWrite 0 [c] s).tty

/-! ## Reading -/

/-- The loop that copies from the buffer: `n` characters from index `i` on. -/
def copyLoop (t : Nat) : Nat → Int → Tty → List UInt8 × Tty
  | 0, _, s => ([], s)
  | n + 1, i, s =>
      let (c, s) := s.load t i
      let (dest, s) := copyLoop t n (i + 1) s
      (c :: dest, s)

/-- The loop that moves the rest down: `n` characters from index `i` on. -/
def shiftLoop (t : Nat) (actualCopy : Int) : Nat → Int → Tty → Tty
  | 0, _, s => s
  | n + 1, i, s =>
      let (c, s) := s.load t i
      shiftLoop t actualCopy n (i + 1) (s.store t (i - actualCopy) c)

/-- How many characters `terminal_read` copies. -/
def actualCopy (s : Tty) (target : Nat) (nbytes : Int) : Int :=
  if nbytes < s.tail target + 1 then nbytes else s.tail target + 1

/-- `terminal_read`, called when `active_tty` was `target`, once `enter_status` is set. -/
def terminalRead (target : Nat) (nbytes : Int) (s : Tty) : ReadResult × Tty :=
  let s := { s with enterStatus := false }
  if s.tail target = -1 then (⟨0, []⟩, s)
  else
    let n := s.actualCopy target nbytes
    let (dest, s) := copyLoop target n.toNat 0 s
    let s := shiftLoop target n (s.tail target + 1 - n).toNat n s
    (⟨n, dest ++ [0]⟩, s.setTail target (s.tail target - n))

/-- `terminal_open`, without the `clear`. -/
def terminalOpen (s : Tty) : Tty :=
  { s with tail := fun t ↦ if t < maxTty then -1 else s.tail t }

/-- The variables of the driver before anything is typed. -/
def boot : Tty := ⟨fun _ ↦ 0, fun _ ↦ 0, false, 0, []⟩

/-! ## What a key does -/

theorem key_bksp (s : Tty) :
    s.key 8 = if s.tail s.activeTty > -1 then s.setTail s.activeTty (s.tail s.activeTty - 1)
      else s := by
  simp only [key, terminalWrite, writeLoop, ne_eq, Int.reduceEq, not_false_eq_true, and_true,
    if_true]
  split <;> rfl

theorem key_enter (s : Tty) : s.key 0x0a = { s with enterStatus := true } := rfl

/-- Any other key is a character. -/
def IsChar (c : UInt8) : Prop := c ≠ 8 ∧ c ≠ 0x0a

instance (c : UInt8) : Decidable (IsChar c) := inferInstanceAs (Decidable (_ ∧ _))

/-- The three kinds of keys. -/
theorem bksp_or_enter_or_isChar (c : UInt8) : c = 8 ∨ c = 0x0a ∨ IsChar c := by
  by_cases hbksp : c = 8
  · exact Or.inl hbksp
  · exact Or.inr ((em (c = 0x0a)).imp_right fun henter ↦ ⟨hbksp, henter⟩)

theorem key_char {c : UInt8} (hc : IsChar c) {s : Tty} (h : s.tail s.activeTty < maxBufferSize) :
    s.key c = (s.setTail s.activeTty (s.tail s.activeTty + 1)).store s.activeTty
      (s.tail s.activeTty + 1) c := by
  simp only [key, terminalWrite, writeLoop, hc.1, hc.2, h, if_false, ne_eq, Int.reduceEq,
    not_false_eq_true, and_true, if_true]
  simp only [setTail, Function.update_self]

theorem key_activeTty (s : Tty) (c : UInt8) : (s.key c).activeTty = s.activeTty := by
  simp only [key, terminalWrite, writeLoop]
  split
  · split <;> rfl
  · split
    · rfl
    · split <;> rfl

/-- The index that a character is stored at. -/
theorem mem_key_used {s : Tty} {c : UInt8} (h : s.tail s.activeTty < maxBufferSize) {i : Int}
    (hi : i ∈ (s.key c).used) : (IsChar c ∧ i = s.tail s.activeTty + 1) ∨ i ∈ s.used := by
  rcases bksp_or_enter_or_isChar c with rfl | rfl | hc
  · rw [key_bksp] at hi
    split at hi
    · exact Or.inr hi
    · exact Or.inr hi
  · rw [key_enter] at hi
    exact Or.inr hi
  · rw [key_char hc h] at hi
    exact (List.mem_cons.mp hi).imp_left fun heq ↦ ⟨hc, heq⟩

/-! ## What a read does -/

/-- The copying loop changes nothing. -/
theorem copyLoop_eq (t n : Nat) (i : Int) (s : Tty) :
    copyLoop t n i s =
      (cells s.memory (cell t i) n, { s with used := (cells id i n).reverse ++ s.used }) := by
  induction n generalizing i s with
  | zero => rfl
  | succ n ih =>
      have hnext : cell t (i + 1) = cell t i + 1 := (Int.add_assoc _ _ _).symm
      simp only [copyLoop, load, ih, cells_succ', hnext, List.reverse_cons, List.append_assoc,
        List.singleton_append, id_eq]

/-- The other loop changes the buffer only. -/
theorem shiftLoop_eq (t : Nat) (n : Int) (k : Nat) (i : Int) (s : Tty) :
    shiftLoop t n k i s =
      { s with memory := moveDown n k (cell t i) s.memory, used := (shiftLoop t n k i s).used } := by
  induction k generalizing i s with
  | zero => rfl
  | succ k ih =>
      have hnext : cell t (i + 1) = cell t i + 1 := (Int.add_assoc _ _ _).symm
      have hdown : cell t (i - n) = cell t i - n := (Int.add_sub_assoc _ _ _).symm
      simp only [shiftLoop, load, moveDown]
      rw [ih]
      simp only [store, hnext, hdown]

theorem shiftLoop_tail (t : Nat) (n : Int) (k : Nat) (i : Int) (s : Tty) :
    (shiftLoop t n k i s).tail = s.tail := by
  rw [shiftLoop_eq]

/-- The indices it uses. -/
theorem mem_shiftLoop_used {t : Nat} {n : Int} {k : Nat} {i j : Int} {s : Tty} :
    j ∈ (shiftLoop t n k i s).used ↔
      j ∈ s.used ∨ (i ≤ j ∧ j < i + k) ∨ (i - n ≤ j ∧ j < i - n + k) := by
  induction k generalizing i s with
  | zero => exact ⟨Or.inl, fun h ↦ h.resolve_right (by omega)⟩
  | succ k ih =>
      simp only [shiftLoop, load]
      rw [ih]
      simp only [store, List.mem_cons]
      constructor
      · rintro ((rfl | rfl | h) | h)
        · exact Or.inr (by omega)
        · exact Or.inr (by omega)
        · exact Or.inl h
        · exact Or.inr (by omega)
      · rintro (h | h)
        · exact Or.inl (Or.inr (Or.inr h))
        · have hcases : (j = i - n ∨ j = i) ∨
            (i + 1 ≤ j ∧ j < i + 1 + k ∨ i + 1 - n ≤ j ∧ j < i + 1 - n + k) := by omega
          exact hcases.imp_left (Or.imp_right Or.inl)

variable {s : Tty} {t : Nat} {n : Int}

theorem terminalRead_empty (h : s.tail t = -1) :
    terminalRead t n s = (⟨0, []⟩, { s with enterStatus := false }) := if_pos h

/-- A read that finds characters, as its two loops. -/
theorem terminalRead_eq_loops (h : s.tail t ≠ -1) :
    terminalRead t n s =
      (⟨s.actualCopy t n,
          (copyLoop t (s.actualCopy t n).toNat 0 { s with enterStatus := false }).1 ++ [0]⟩,
        (shiftLoop t (s.actualCopy t n) (s.tail t + 1 - s.actualCopy t n).toNat (s.actualCopy t n)
          (copyLoop t (s.actualCopy t n).toNat 0 { s with enterStatus := false }).2).setTail t
            (s.tail t - s.actualCopy t n)) := by
  simp only [terminalRead, if_neg h, copyLoop_eq, shiftLoop_tail]
  rfl

/-- A read that finds characters. -/
theorem terminalRead_eq (h : s.tail t ≠ -1) :
    terminalRead t n s =
      (⟨s.actualCopy t n, cells s.memory (cell t 0) (s.actualCopy t n).toNat ++ [0]⟩,
        { s with
          memory := moveDown (s.actualCopy t n) (s.tail t + 1 - s.actualCopy t n).toNat
            (cell t (s.actualCopy t n)) s.memory
          tail := Function.update s.tail t (s.tail t - s.actualCopy t n)
          enterStatus := false
          used := (terminalRead t n s).2.used }) := by
  simp only [terminalRead_eq_loops h, copyLoop_eq]
  rw [shiftLoop_eq]
  rfl

theorem terminalRead_activeTty (s : Tty) (t : Nat) (n : Int) :
    (terminalRead t n s).2.activeTty = s.activeTty := by
  by_cases h : s.tail t = -1
  · rw [terminalRead_empty h]
  · rw [terminalRead_eq h]

/-- The indices it uses. -/
theorem mem_terminalRead_used (h : s.tail t ≠ -1) {j : Int} :
    j ∈ (terminalRead t n s).2.used ↔ j ∈ s.used ∨ (0 ≤ j ∧ j < s.actualCopy t n) ∨
      (s.actualCopy t n ≤ j ∧ j ≤ s.tail t) ∨ (0 ≤ j ∧ j ≤ s.tail t - s.actualCopy t n) := by
  have hused : (terminalRead t n s).2.used = (shiftLoop t (s.actualCopy t n)
      (s.tail t + 1 - s.actualCopy t n).toNat (s.actualCopy t n)
      (copyLoop t (s.actualCopy t n).toNat 0 { s with enterStatus := false }).2).used := by
    simp only [terminalRead, if_neg h, copyLoop_eq]
    rfl
  rw [hused, mem_shiftLoop_used, copyLoop_eq]
  simp only [List.mem_append, List.mem_reverse, mem_cells_id]
  by_cases hj : j ∈ s.used
  · exact ⟨fun _ ↦ Or.inl hj, fun _ ↦ Or.inl (Or.inr hj)⟩
  · simp only [hj, or_false, false_or]
    omega

/-! ## The pending characters -/

/-- The characters in the buffer of terminal `t`. -/
def pending (s : Tty) (t : Nat) : List UInt8 := cells s.memory (cell t 0) (s.tail t + 1).toNat

/-- What a key does to the characters that are pending. -/
def edit (c : UInt8) (l : List UInt8) : List UInt8 :=
  if c = 8 then l.dropLast else if c = 0x0a then l else l ++ [c]

theorem edit_char {c : UInt8} (hc : IsChar c) (l : List UInt8) : edit c l = l ++ [c] := by
  rw [edit, if_neg hc.1, if_neg hc.2]

/-- An edit works at the end; a backspace there reaches the front part only if nothing is
behind it. -/
theorem edit_append {c : UInt8} (l l' : List UInt8) (h : c = 8 → l' ≠ [] ∨ l = []) :
    edit c (l ++ l') = l ++ edit c l' := by
  rw [edit, edit]
  split
  · rename_i hc
    rcases h hc with hne | rfl
    · rw [List.dropLast_append_of_ne_nil hne]
    · rfl
  · split
    · rfl
    · rw [List.append_assoc]

/-- The indices of the last characters are those of a buffer. -/
def Bounded (s : Tty) : Prop := ∀ t, t < maxTty → -1 ≤ s.tail t ∧ s.tail t < maxBufferSize

theorem length_pending (s : Tty) (t : Nat) : (s.pending t).length = (s.tail t + 1).toNat :=
  length_cells _ _ _

theorem pending_eq_nil (h : s.tail t = -1) : s.pending t = [] := by
  rw [pending, h]
  rfl

theorem tail_open (s : Tty) {t : Nat} (ht : t < maxTty) : s.terminalOpen.tail t = -1 := if_pos ht

theorem bounded_open (s : Tty) : s.terminalOpen.Bounded := by
  intro t ht
  rw [tail_open s ht]
  decide

/-- The cells of two buffers are apart. -/
theorem cell_disjoint {t t' : Nat} (h : t ≠ t') {i : Int} {n : Nat} (h₀ : 0 ≤ i)
    (hi : i < maxBufferSize) (hn : n ≤ maxBufferSize) :
    cell t i < cell t' 0 ∨ cell t' 0 + n ≤ cell t i := by
  simp only [cell, maxBufferSize] at *
  omega

/-- A backspace removes the last character. -/
theorem pending_bksp (s : Tty) (t : Nat) :
    (s.key 8).pending t = if t = s.activeTty then (s.pending t).dropLast else s.pending t := by
  rw [key_bksp]
  split
  · rename_i htail
    split
    · rename_i heq
      subst heq
      have hlen : (s.tail s.activeTty + 1).toNat = (s.tail s.activeTty - 1 + 1).toNat + 1 := by omega
      simp only [pending, setTail, Function.update_self, hlen, dropLast_cells]
    · rename_i hne
      simp only [pending, setTail, Function.update_of_ne hne]
  · rename_i htail
    split
    · rename_i heq
      subst heq
      have hlen : (s.tail s.activeTty + 1).toNat = 0 := by omega
      simp only [pending, hlen, cells_zero, List.dropLast_nil]
    · rfl

/-- How much a read copies of what is pending. -/
theorem actualCopy_eq (hlow : -1 ≤ s.tail t) (hn : 0 ≤ n) :
    s.actualCopy t n = (min n.toNat (s.pending t).length : Nat) := by
  rw [actualCopy, length_pending]
  split <;> omega

namespace Bounded

variable {c : UInt8}

theorem setTail (h : s.Bounded) {t : Nat} {i : Int} (hi : -1 ≤ i) (hi' : i < maxBufferSize) :
    (s.setTail t i).Bounded := by
  intro t' ht'
  rcases eq_or_ne t' t with rfl | hne
  · rw [setTail_tail_self]
    exact ⟨hi, hi'⟩
  · rw [setTail_tail_of_ne s hne]
    exact h t' ht'

theorem key (h : s.Bounded) (ha : s.activeTty < maxTty)
    (hroom : IsChar c → s.tail s.activeTty + 1 < maxBufferSize) : (s.key c).Bounded := by
  obtain ⟨hlow, hhigh⟩ := h _ ha
  rcases bksp_or_enter_or_isChar c with rfl | rfl | hc
  · rw [key_bksp]
    split
    · exact h.setTail (by omega) (by omega)
    · exact h
  · rw [key_enter]
    exact h
  · rw [key_char hc hhigh]
    exact h.setTail (by omega) (hroom hc)

theorem read (h : s.Bounded) (ht : t < maxTty) (hn : 0 ≤ n ∨ s.tail t = -1) :
    (terminalRead t n s).2.Bounded := by
  obtain ⟨hlow, hhigh⟩ := h t ht
  by_cases hempty : s.tail t = -1
  · rw [terminalRead_empty hempty]
    exact h
  · have hcopy := actualCopy_eq hlow (hn.resolve_right hempty)
    rw [length_pending] at hcopy
    rw [terminalRead_eq hempty]
    exact h.setTail (t := t) (i := s.tail t - s.actualCopy t n) (by omega) (by omega)

/-- A character is appended, if there is room for it. -/
theorem pending_char (h : s.Bounded) (ha : s.activeTty < maxTty) (hc : IsChar c)
    (hroom : s.tail s.activeTty + 1 < maxBufferSize) (ht : t < maxTty) :
    (s.key c).pending t = if t = s.activeTty then s.pending t ++ [c] else s.pending t := by
  rw [key_char hc (by omega)]
  split
  · rename_i heq
    subst heq
    obtain ⟨hlow, -⟩ := h _ ha
    have hlen : (s.tail s.activeTty + 1 + 1).toNat = (s.tail s.activeTty + 1).toNat + 1 := by omega
    have hcell : cell s.activeTty (s.tail s.activeTty + 1) =
        cell s.activeTty 0 + (s.tail s.activeTty + 1).toNat := by
      rw [Int.toNat_of_nonneg (by omega), cell, cell, Int.add_zero]
    simp only [pending, Tty.setTail, store, Function.update_self, hlen, hcell]
    exact cells_succ_update _ _ _ _
  · rename_i hne
    simp only [pending, Tty.setTail, store, Function.update_of_ne hne]
    refine cells_update_of_not_mem _ (cell_disjoint (Ne.symm hne) ?_ hroom ?_)
    · obtain ⟨hlow, -⟩ := h _ ha
      omega
    · obtain ⟨-, hhigh⟩ := h _ ht
      simp only [maxBufferSize] at hhigh ⊢
      omega

/-- **A key edits what is pending on the active terminal.** -/
theorem pending_key (h : s.Bounded) (ha : s.activeTty < maxTty)
    (hroom : IsChar c → s.tail s.activeTty + 1 < maxBufferSize) (ht : t < maxTty) :
    (s.key c).pending t = if t = s.activeTty then edit c (s.pending t) else s.pending t := by
  rcases bksp_or_enter_or_isChar c with rfl | rfl | hc
  · exact pending_bksp s t
  · rw [key_enter]
    exact (ite_self _).symm
  · rw [h.pending_char ha hc (hroom hc) ht, edit_char hc]

/-- The buffer that a read leaves. -/
theorem pending_read_self (h : s.Bounded) (ht : t < maxTty) (hn : 0 ≤ n) :
    (terminalRead t n s).2.pending t = (s.pending t).drop n.toNat := by
  obtain ⟨hlow, -⟩ := h t ht
  by_cases hempty : s.tail t = -1
  · rw [terminalRead_empty hempty, pending_eq_nil hempty, List.drop_nil]
    exact pending_eq_nil hempty
  · have hcopy := actualCopy_eq hlow hn
    have hlen := length_pending s t
    rw [List.drop_eq_drop_min, terminalRead_eq hempty, hcopy]
    generalize hk : min n.toNat (s.pending t).length = k
    have haddr : cell t k = cell t 0 + k := by
      simp only [cell]
      omega
    have hdown : cell t k - k = cell t 0 := by
      rw [haddr, Int.add_sub_cancel]
    have hcount : (s.tail t - k + 1).toNat = (s.tail t + 1 - k).toNat := by omega
    have hrest : (s.tail t + 1).toNat - k = (s.tail t + 1 - k).toNat := by omega
    have hmoved := cells_moveDown (Int.natCast_nonneg k) (s.tail t + 1 - k).toNat (cell t k)
      s.memory
    simp only [pending, Function.update_self, hcount]
    rw [drop_cells _ _ (by omega), hrest, ← haddr, ← hmoved, hdown]

/-- The buffers that it leaves alone. -/
theorem pending_read_of_ne (h : s.Bounded) (ht : t < maxTty) (hn : 0 ≤ n) {t' : Nat}
    (ht' : t' < maxTty) (hne : t' ≠ t) : (terminalRead t n s).2.pending t' = s.pending t' := by
  obtain ⟨hlow, hhigh⟩ := h t ht
  obtain ⟨hlow', hhigh'⟩ := h t' ht'
  by_cases hempty : s.tail t = -1
  · rw [terminalRead_empty hempty]
    rfl
  · have hcopy := actualCopy_eq hlow hn
    rw [terminalRead_eq hempty, hcopy]
    simp only [pending, Function.update_of_ne hne]
    refine cells_moveDown_of_not_mem (Int.natCast_nonneg _) _ _ _ ?_
    simp only [cell, maxBufferSize] at *
    omega

/-- **A read returns the characters at the front.** -/
theorem returned_read (h : s.Bounded) (ht : t < maxTty) (hn : 0 ≤ n) :
    (terminalRead t n s).1.returned = (s.pending t).take n.toNat := by
  obtain ⟨hlow, -⟩ := h t ht
  by_cases hempty : s.tail t = -1
  · rw [terminalRead_empty hempty, pending_eq_nil hempty, List.take_nil]
    rfl
  · have hcopy := actualCopy_eq hlow hn
    rw [List.take_eq_take_min, terminalRead_eq hempty, hcopy]
    generalize hk : min n.toNat (s.pending t).length = k
    have hle : k ≤ (s.tail t + 1).toNat := by
      rw [← length_pending, ← hk]
      exact Nat.min_le_right _ _
    rw [pending, take_cells _ _ hle, ReadResult.returned, Int.toNat_natCast]
    exact List.take_left' (length_cells _ _ _)

end Bounded

end Tty

end Illinix
