import Mathlib.Algebra.Order.Ring.Int
import Mathlib.Logic.Function.Basic
import Mathlib.Tactic.Common

/-!
# The text screen

The output functions of `lib.c` write to the text-mode video memory at `0xB8000`, two
bytes a cell, and keep the place of the cursor in `screen_x` and `screen_y`.  Memory is
taken from `video_mem` on, at any offset, so that a write outside the 80 by 25 cells would
be seen.  The hardware cursor that `update_cursor` moves is not modelled: nothing reads it.

The cursor may stand in row 25, below the last row, after a character was put in the last
column of the last row: the scrolling is left to the next character.  `Screen.CursorOk` is
the invariant, and with it every access is to one of the 2000 cells: two screens that agree
on these cells agree on them after any output (`Screen.Same`).
-/

namespace Illinix

def numCols : Int := 80
def numRows : Int := 25
def attrib : UInt8 := 0x7
def screenSize : Int := 4000

theorem numCols_pos : 0 < numCols := by decide

theorem numRows_pos : 0 < numRows := by decide

/-- The bytes from `video_mem` on. -/
abbrev VideoMem := Int → UInt8

/-- Video memory, and the cursor. -/
structure Screen where
  mem : VideoMem
  screenX : Int
  screenY : Int

namespace VideoMem

/-- A character and the default attribute in cell `i`. -/
def setCell (m : VideoMem) (i : Int) (c : UInt8) : VideoMem :=
  Function.update (Function.update m (2 * i) c) (2 * i + 1) attrib

theorem setCell_apply (m : VideoMem) (i : Int) (c : UInt8) (a : Int) :
    m.setCell i c a = if a = 2 * i + 1 then attrib else if a = 2 * i then c else m a := by
  simp only [setCell, Function.update_apply]

theorem setCell_of_ne (m : VideoMem) {i j : Int} (h : j ≠ i) (c : UInt8) :
    m.setCell i c (2 * j) = m (2 * j) ∧ m.setCell i c (2 * j + 1) = m (2 * j + 1) := by
  constructor
  · rw [setCell_apply, if_neg (by omega), if_neg (by omega)]
  · rw [setCell_apply, if_neg (by omega), if_neg (by omega)]

/-- Cell `j` copied to cell `i`. -/
def copyCell (m : VideoMem) (i j : Int) : VideoMem :=
  let m' := Function.update m (2 * i) (m (2 * j))
  Function.update m' (2 * i + 1) (m' (2 * j + 1))

/-- The loop that blanks `n` cells from cell `i` on. -/
def blank : Nat → Int → VideoMem → VideoMem
  | 0, _, m => m
  | n + 1, i, m => blank n (i + 1) (m.setCell i 0x20)

/-- The loop that moves `n` cells up by a row, from cell `i` on. -/
def moveUp : Nat → Int → VideoMem → VideoMem
  | 0, _, m => m
  | n + 1, i, m => moveUp n (i + 1) (m.copyCell i (i + numCols))

/-- Both loops of `putc`: the screen moves up by a row, and the last row is blank. -/
def scroll (m : VideoMem) : VideoMem :=
  blank numCols.toNat ((numRows - 1) * numCols) (moveUp ((numRows - 1) * numCols).toNat 0 m)

/-- The loop of `bksp` over the blanks at the end of a row; it stops at column 1. -/
def trim (m : VideoMem) (y : Int) : Nat → Nat
  | 0 => 0
  | 1 => 1
  | x + 2 => if m (2 * (numCols * y + (x + 1 : Nat))) = 0x20 then trim m y (x + 1) else x + 2

end VideoMem

namespace Screen

/-- `clear`. -/
def clear (s : Screen) : Screen := ⟨s.mem.blank (numRows * numCols).toNat 0, 0, 0⟩

/-- A new row is begun when the column is past the last one. -/
def wrap (s : Screen) : Screen :=
  if s.screenX ≥ numCols then { s with screenY := s.screenY + 1, screenX := 0 } else s

/-- `putc` up to the test for the last row: where the character moves the cursor to. -/
def advance (c : UInt8) (s : Screen) : Screen :=
  let s := if c = 0x0a ∨ c = 0x0d then { s with screenY := s.screenY + 1, screenX := 0 } else s
  let s := if c = 0x09 then { s with screenX := s.screenX + 4 } else s
  s.wrap

/-- The screen scrolls when the cursor is below the last row. -/
def scrollUp (s : Screen) : Screen :=
  if s.screenY ≥ numRows then ⟨s.mem.scroll, 0, s.screenY - 1⟩ else s

/-- The character is written, and the cursor goes to the next column, or to the next row
after the last column. -/
def place (c : UInt8) (s : Screen) : Screen :=
  let s := { s with
    mem := s.mem.setCell (numCols * s.screenY + s.screenX) c
    screenX := s.screenX + 1 }
  if s.screenX = numCols then { s with screenY := s.screenY + 1, screenX := 0 } else s

/-- `putc`. -/
def putc (c : UInt8) (s : Screen) : Screen :=
  if c = 0 then s
  else
    let s := (s.advance c).scrollUp
    if ¬ (c = 0x0a ∨ c = 0x0d ∨ c = 0x09) then s.place c else s

/-- Where `bksp` moves the cursor to. -/
def retreat (s : Screen) : Screen :=
  let s := { s with screenX := s.screenX - 1 }
  if s.screenX < 0 then
    let s := { s with screenY := s.screenY - 1, screenX := numCols - 1 }
    if s.screenY < 0 then { s with screenY := 0, screenX := 0 }
    else { s with screenX := s.mem.trim s.screenY s.screenX.toNat }
  else s

/-- `bksp`. -/
def bksp (s : Screen) : Screen :=
  let s := s.retreat
  { s with mem := s.mem.setCell (numCols * s.screenY + s.screenX) 0x20 }

/-! ## The cursor -/

/-- The cursor is on the screen, or at the start of the row below it. -/
structure CursorOk (s : Screen) : Prop where
  x_nonneg : 0 ≤ s.screenX
  x_lt : s.screenX < numCols
  y_nonneg : 0 ≤ s.screenY
  y_le : s.screenY ≤ numRows
  below : s.screenY = numRows → s.screenX = 0

end Screen

/-- An output to the screen. -/
inductive ScreenOp
  | putc (c : UInt8)
  | bksp
  | clear
deriving DecidableEq, Repr

def ScreenOp.apply : ScreenOp → Screen → Screen
  | putc c => Screen.putc c
  | bksp => Screen.bksp
  | clear => Screen.clear

namespace Screen

variable {s s' : Screen}

/-- Where the cursor is after it has moved for a character, before the screen scrolls. -/
theorem CursorOk.advance (h : s.CursorOk) (c : UInt8) :
    0 ≤ (s.advance c).screenX ∧ (s.advance c).screenX < numCols ∧ 0 ≤ (s.advance c).screenY ∧
      (s.advance c).screenY ≤ numRows + 1 ∧
      ((s.advance c).screenY = numRows + 1 → c = 0x0a ∨ c = 0x0d) := by
  obtain ⟨hx₀, hx, hy₀, hy, hb⟩ := h
  by_cases hnl : c = 0x0a ∨ c = 0x0d
  · have htab : c ≠ 0x09 := by
      rintro rfl
      revert hnl
      decide
    have hcol : ¬ 0 ≥ numCols := Int.not_le.mpr numCols_pos
    simp only [Screen.advance, if_pos hnl, if_neg htab, wrap, if_neg hcol]
    exact ⟨Int.le_refl 0, numCols_pos, Int.le_add_one hy₀, Int.add_le_add_right hy 1, fun _ ↦ hnl⟩
  · by_cases htab : c = 0x09
    · simp only [Screen.advance, if_neg hnl, if_pos htab, wrap]
      split
      · -- the column passes the last one, so the cursor was not below the screen
        rename_i hge
        have hrow : s.screenY < numRows := by
          refine Int.lt_iff_le_and_ne.mpr ⟨hy, fun heq ↦ ?_⟩
          rw [hb heq] at hge
          exact absurd hge (by decide)
        exact ⟨Int.le_refl 0, numCols_pos, Int.le_add_one hy₀, Int.add_le_add_right hy 1,
          fun heq ↦ absurd (add_right_cancel heq) (Int.ne_of_lt hrow)⟩
      · rename_i hlt
        exact ⟨Int.le_trans hx₀ (Int.le_add_of_nonneg_right (by decide)), Int.not_le.mp hlt, hy₀,
          Int.le_add_one hy, fun heq ↦ absurd heq (Int.ne_of_lt (Int.lt_add_one_of_le hy))⟩
    · simp only [Screen.advance, if_neg hnl, if_neg htab, wrap, if_neg (Int.not_le.mpr hx)]
      exact ⟨hx₀, hx, hy₀, Int.le_add_one hy,
        fun heq ↦ absurd heq (Int.ne_of_lt (Int.lt_add_one_of_le hy))⟩

/-- The cursor after the screen has scrolled: on the screen, unless the character ended a
line below it. -/
theorem CursorOk.scrollUp_advance (h : s.CursorOk) (c : UInt8) :
    (s.advance c).scrollUp.CursorOk ∧
      ((s.advance c).scrollUp.screenY < numRows ∨ c = 0x0a ∨ c = 0x0d) := by
  obtain ⟨hx₀, hx, hy₀, hy, hnl⟩ := h.advance c
  rw [scrollUp]
  split
  · rename_i hge
    have hrow : 0 ≤ (s.advance c).screenY - 1 := by
      simp only [numRows] at hge
      omega
    refine ⟨⟨Int.le_refl 0, numCols_pos, hrow, Int.sub_right_le_of_le_add hy, fun _ ↦ rfl⟩, ?_⟩
    rcases Int.lt_or_eq_of_le hy with hlt | heq
    · exact Or.inl (Int.sub_right_lt_of_lt_add hlt)
    · exact Or.inr (hnl heq)
  · rename_i hlt
    exact ⟨⟨hx₀, hx, hy₀, by omega, fun heq ↦ by omega⟩, Or.inl (by omega)⟩

theorem CursorOk.place (h : s.CursorOk) (hy : s.screenY < numRows) (c : UInt8) :
    (s.place c).CursorOk := by
  obtain ⟨hx₀, hx, hy₀, _, _⟩ := h
  simp only [Screen.place]
  split
  · exact ⟨Int.le_refl 0, numCols_pos, Int.le_add_one hy₀, hy, fun _ ↦ rfl⟩
  · rename_i hne
    have hcol : s.screenX + 1 < numCols := Int.lt_iff_le_and_ne.mpr ⟨hx, hne⟩
    exact ⟨Int.le_add_one hx₀, hcol, hy₀, Int.le_of_lt hy, fun heq ↦ absurd heq (Int.ne_of_lt hy)⟩

/-- **`putc` keeps the cursor.** -/
theorem CursorOk.putc (h : s.CursorOk) (c : UInt8) : (s.putc c).CursorOk := by
  rw [Screen.putc]
  split
  · exact h
  · obtain ⟨hok, hy⟩ := h.scrollUp_advance c
    dsimp only
    split
    · rename_i hplain
      refine hok.place (hy.resolve_right fun hnl ↦ hplain ?_) c
      exact hnl.imp_right Or.inl
    · exact hok

end Screen

namespace VideoMem

theorem trim_le (m : VideoMem) (y : Int) (x : Nat) : m.trim y x ≤ x := by
  fun_induction trim m y x with
  | case1 => exact Nat.le_refl 0
  | case2 => exact Nat.le_refl 1
  | case3 x _ ih => exact Nat.le_succ_of_le ih
  | case4 x _ => exact Nat.le_refl _

end VideoMem

namespace Screen

variable {s s' : Screen}

/-- After `bksp` has moved the cursor it is on the screen. -/
theorem CursorOk.retreat (h : s.CursorOk) :
    s.retreat.CursorOk ∧ s.retreat.screenY < numRows := by
  obtain ⟨hx₀, hx, hy₀, hy, hb⟩ := h
  simp only [Screen.retreat]
  split
  · split
    · exact ⟨⟨Int.le_refl 0, numCols_pos, Int.le_refl 0, Int.le_of_lt numRows_pos, fun _ ↦ rfl⟩,
        numRows_pos⟩
    · rename_i hneg hrow
      have htrim := s.mem.trim_le (s.screenY - 1) (numCols - 1).toNat
      have hcol : (s.mem.trim (s.screenY - 1) (numCols - 1).toNat : Int) < numCols := by
        simp only [numCols] at htrim ⊢
        omega
      have hlast : s.screenY - 1 < numRows := Int.sub_right_lt_of_lt_add (Int.lt_add_one_of_le hy)
      exact ⟨⟨Int.natCast_nonneg _, hcol, Int.not_lt.mp hrow, Int.le_of_lt hlast,
        fun heq ↦ absurd heq (Int.ne_of_lt hlast)⟩, hlast⟩
  · rename_i hneg
    have hlast : s.screenY < numRows := by
      refine Int.lt_iff_le_and_ne.mpr ⟨hy, fun heq ↦ hneg ?_⟩
      rw [hb heq]
      decide
    exact ⟨⟨Int.not_lt.mp hneg, Int.lt_of_le_of_lt (Int.sub_le_self _ (by decide)) hx, hy₀, hy,
      fun heq ↦ absurd heq (Int.ne_of_lt hlast)⟩, hlast⟩

theorem CursorOk.bksp (h : s.CursorOk) : s.bksp.CursorOk :=
  ⟨h.retreat.1.x_nonneg, h.retreat.1.x_lt, h.retreat.1.y_nonneg, h.retreat.1.y_le,
    h.retreat.1.below⟩

theorem CursorOk.clear (s : Screen) : s.clear.CursorOk :=
  ⟨Int.le_refl 0, numCols_pos, Int.le_refl 0, Int.le_of_lt numRows_pos, fun _ ↦ rfl⟩

/-- **Every output keeps the cursor.** -/
theorem CursorOk.apply (h : s.CursorOk) (op : ScreenOp) : (op.apply s).CursorOk := by
  cases op with
  | putc c => exact h.putc c
  | bksp => exact h.bksp
  | clear => exact CursorOk.clear s

end Screen

/-! ## The cells of the screen -/

namespace VideoMem

/-- Agreement on the bytes of the screen. -/
def SameCells (m m' : VideoMem) : Prop := ∀ a, 0 ≤ a → a < screenSize → m a = m' a

namespace SameCells

variable {m m' m'' : VideoMem}

theorem symm (h : m.SameCells m') : m'.SameCells m := fun a h₀ hlt ↦ (h a h₀ hlt).symm

theorem trans (h : m.SameCells m') (h' : m'.SameCells m'') : m.SameCells m'' :=
  fun a h₀ hlt ↦ (h a h₀ hlt).trans (h' a h₀ hlt)

theorem update (h : m.SameCells m') (a : Int) (b : UInt8) :
    SameCells (Function.update m a b) (Function.update m' a b) := by
  intro a' h₀ hlt
  rcases eq_or_ne a' a with rfl | hne
  · rw [Function.update_self, Function.update_self]
  · rw [Function.update_of_ne hne, Function.update_of_ne hne, h a' h₀ hlt]

theorem setCell (h : m.SameCells m') (i : Int) (c : UInt8) :
    (m.setCell i c).SameCells (m'.setCell i c) := (h.update _ _).update _ _

/-- A cell of the screen is copied. -/
theorem copyCell (h : m.SameCells m') (i : Int) {j : Int} (h₀ : 0 ≤ j)
    (hj : 2 * j + 1 < screenSize) : (m.copyCell i j).SameCells (m'.copyCell i j) := by
  have hfst : m (2 * j) = m' (2 * j) := h _ (by omega) (by omega)
  simp only [VideoMem.copyCell, hfst]
  have hmid := h.update (2 * i) (m' (2 * j))
  rw [hmid (2 * j + 1) (by omega) hj]
  exact hmid.update _ _

theorem blank (h : m.SameCells m') (n : Nat) (i : Int) :
    (m.blank n i).SameCells (m'.blank n i) := by
  induction n generalizing m m' i with
  | zero => exact h
  | succ n ih => exact ih (h.setCell i 0x20) (i + 1)

theorem moveUp (h : m.SameCells m') {n : Nat} {i : Int} (h₀ : 0 ≤ i)
    (hlast : i + n ≤ (numRows - 1) * numCols) : (m.moveUp n i).SameCells (m'.moveUp n i) := by
  induction n generalizing m m' i with
  | zero => exact h
  | succ n ih =>
      simp only [numRows, numCols] at hlast
      have hsrc : 2 * (i + numCols) + 1 < screenSize := by
        simp only [numCols, screenSize]
        omega
      refine ih (h.copyCell i (Int.add_nonneg h₀ (by decide)) hsrc) (Int.le_add_one h₀) ?_
      simp only [numRows, numCols]
      omega

theorem scroll (h : m.SameCells m') : m.scroll.SameCells m'.scroll :=
  (h.moveUp (Int.le_refl 0) (by decide)).blank _ _

/-- `bksp` looks at a row of the screen only. -/
theorem trim (h : m.SameCells m') {y : Int} (h₀ : 0 ≤ y) (hy : y < numRows) {x : Nat}
    (hx : x < numCols) : m.trim y x = m'.trim y x := by
  have hcell (x : Nat) (hx : x + 2 < numCols) :
      m (2 * (numCols * y + (x + 1 : Nat))) = m' (2 * (numCols * y + (x + 1 : Nat))) := by
    simp only [numCols, numRows] at hx hy
    apply h
    · simp only [numCols]
      omega
    · simp only [numCols, screenSize]
      omega
  fun_induction VideoMem.trim m y x with
  | case1 => rfl
  | case2 => rfl
  | case3 x hblank ih =>
      rw [VideoMem.trim, if_pos (hcell x hx ▸ hblank)]
      exact ih (by omega)
  | case4 x hblank => rw [VideoMem.trim, if_neg (hcell x hx ▸ hblank)]

end SameCells

end VideoMem

namespace Screen

/-- Two screens that show the same, with the cursor at the same place. -/
structure Same (s s' : Screen) : Prop where
  mem : s.mem.SameCells s'.mem
  x : s.screenX = s'.screenX
  y : s.screenY = s'.screenY

namespace Same

variable {s s' : Screen}

@[refl] theorem refl (s : Screen) : s.Same s := ⟨fun _ _ _ ↦ rfl, rfl, rfl⟩

theorem symm (h : s.Same s') : s'.Same s := ⟨h.mem.symm, h.x.symm, h.y.symm⟩

theorem trans {s'' : Screen} (h : s.Same s') (h' : s'.Same s'') : s.Same s'' :=
  ⟨h.mem.trans h'.mem, h.x.trans h'.x, h.y.trans h'.y⟩

theorem cursorOk (h : s.Same s') (hok : s.CursorOk) : s'.CursorOk where
  x_nonneg := h.x ▸ hok.x_nonneg
  x_lt := h.x ▸ hok.x_lt
  y_nonneg := h.y ▸ hok.y_nonneg
  y_le := h.y ▸ hok.y_le
  below := h.x ▸ h.y ▸ hok.below

theorem wrap (h : s.Same s') : s.wrap.Same s'.wrap := by
  simp only [Screen.wrap, h.x, h.y]
  split
  · exact ⟨h.mem, rfl, rfl⟩
  · exact h

theorem advance (h : s.Same s') (c : UInt8) : (s.advance c).Same (s'.advance c) := by
  apply wrap
  by_cases hnl : c = 0x0a ∨ c = 0x0d
  · simp only [if_pos hnl]
    split
    · exact ⟨h.mem, rfl, congrArg (· + 1) h.y⟩
    · exact ⟨h.mem, rfl, congrArg (· + 1) h.y⟩
  · simp only [if_neg hnl]
    split
    · exact ⟨h.mem, congrArg (· + 4) h.x, h.y⟩
    · exact h

theorem scrollUp (h : s.Same s') : s.scrollUp.Same s'.scrollUp := by
  simp only [Screen.scrollUp, h.y]
  split
  · exact ⟨h.mem.scroll, rfl, rfl⟩
  · exact h

theorem place (h : s.Same s') (c : UInt8) : (s.place c).Same (s'.place c) := by
  simp only [Screen.place, h.x, h.y]
  split
  · exact ⟨h.mem.setCell _ c, rfl, rfl⟩
  · exact ⟨h.mem.setCell _ c, rfl, rfl⟩

theorem putc (h : s.Same s') (c : UInt8) : (s.putc c).Same (s'.putc c) := by
  simp only [Screen.putc]
  split
  · exact h
  · split
    · exact (h.advance c).scrollUp.place c
    · exact (h.advance c).scrollUp

theorem retreat (h : s.Same s') (hok : s.CursorOk) : s.retreat.Same s'.retreat := by
  simp only [Screen.retreat, h.x, h.y]
  split
  · split
    · exact ⟨h.mem, rfl, rfl⟩
    · rename_i hrow
      have hy : s'.screenY - 1 < numRows :=
        Int.sub_right_lt_of_lt_add (Int.lt_add_one_of_le (h.y ▸ hok.y_le))
      have htrim := h.mem.trim (Int.not_lt.mp hrow) hy (x := (numCols - 1).toNat) (by decide)
      exact ⟨h.mem, congrArg Nat.cast htrim, rfl⟩
  · exact ⟨h.mem, rfl, rfl⟩

theorem bksp (h : s.Same s') (hok : s.CursorOk) : s.bksp.Same s'.bksp := by
  have hr := h.retreat hok
  simp only [Screen.bksp, hr.x, hr.y]
  exact ⟨hr.mem.setCell _ _, rfl, rfl⟩

theorem clear (h : s.Same s') : s.clear.Same s'.clear := by
  have hmem := h.mem.blank (numRows * numCols).toNat 0
  rw [Screen.clear, Screen.clear]
  generalize (numRows * numCols).toNat = n at hmem
  exact ⟨hmem, rfl, rfl⟩

/-- **An output does the same on screens that show the same.** -/
theorem apply (h : s.Same s') (hok : s.CursorOk) (op : ScreenOp) :
    (op.apply s).Same (op.apply s') := by
  cases op with
  | putc c => exact h.putc c
  | bksp => exact h.bksp hok
  | clear => exact h.clear

end Same

end Screen

end Illinix
