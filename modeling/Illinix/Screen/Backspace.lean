import Illinix.Screen.Text

/-!
# Taking a character back

`bksp` steps back one column.  At the start of a row it goes up to the last column of the row
above, and from there over the blanks at the end of that row, since the row may have been ended by
a newline and the text may be short.  The test looks at the cell to the left of the cursor: behind a
row that is full, it goes by the blank in column 78 and takes back two characters.

`bksp_undoes_iff` says when `bksp` undoes a `putc`.
-/

namespace Illinix.Screen

/-- The cell that the cursor is on. -/
def cursorCell (s : Screen) : Int := numCols * s.screenY + s.screenX

/-- The screen `s'` is `s` with the cursor where it was and a blank in its cell. -/
structure Undone (s s' : Screen) : Prop where
  x : s'.screenX = s.screenX
  y : s'.screenY = s.screenY
  char : s'.mem (2 * s.cursorCell) = 0x20
  attr : s'.mem (2 * s.cursorCell + 1) = attrib
  other : ∀ i, i ≠ s.cursorCell →
    s'.mem (2 * i) = s.mem (2 * i) ∧ s'.mem (2 * i + 1) = s.mem (2 * i + 1)

/-- The characters that `putc` writes to the screen: all but the NUL and three control
characters. -/
def Placed (c : UInt8) : Prop := c ≠ 0 ∧ c ≠ 0x09 ∧ c ≠ 0x0a ∧ c ≠ 0x0d

instance (c : UInt8) : Decidable (Placed c) := inferInstanceAs (Decidable (_ ∧ _ ∧ _ ∧ _))

theorem Placed.of_printable {c : UInt8} (h : 0x20 ≤ c) : Placed c := by
  refine ⟨?_, ?_, ?_, ?_⟩ <;> rintro rfl <;> exact absurd h (by decide)

variable {s : Screen} {c : UInt8}

theorem advance_of_placed (h : s.CursorOk) (hc : Placed c) : s.advance c = s := by
  obtain ⟨-, htab, hnl, hcr⟩ := hc
  have hend : ¬ (c = 0x0a ∨ c = 0x0d) := not_or.mpr ⟨hnl, hcr⟩
  simp only [advance, if_neg hend, if_neg htab, wrap, if_neg (Int.not_le.mpr h.x_lt)]

/-- The screen scrolls if the cursor is below it, and the character is written. -/
theorem putc_of_placed (h : s.CursorOk) (hc : Placed c) : s.putc c = s.scrollUp.place c := by
  obtain ⟨hzero, htab, hnl, hcr⟩ := id hc
  have hplain : ¬ (c = 0x0a ∨ c = 0x0d ∨ c = 0x09) := by
    rintro (heq | heq | heq)
    · exact hnl heq
    · exact hcr heq
    · exact htab heq
  simp only [putc, if_neg hzero, advance_of_placed h hc, if_pos hplain]

theorem scrollUp_of_lt (hy : s.screenY < numRows) : s.scrollUp = s := if_neg (Int.not_le.mpr hy)

/-- A blank over a character, in the cell of the cursor. -/
theorem undone_setCell (s : Screen) (c : UInt8) :
    s.Undone ⟨(s.mem.setCell s.cursorCell c).setCell s.cursorCell 0x20, s.screenX, s.screenY⟩ where
  x := rfl
  y := rfl
  char := by
    dsimp only
    rw [VideoMem.setCell_apply, if_neg (by omega), if_pos rfl]
  attr := by
    dsimp only
    rw [VideoMem.setCell_apply, if_pos rfl]
  other i hi := by
    obtain ⟨hchar, hattr⟩ := s.mem.setCell_of_ne hi c
    obtain ⟨hchar', hattr'⟩ := (s.mem.setCell s.cursorCell c).setCell_of_ne hi 0x20
    exact ⟨hchar'.trans hchar, hattr'.trans hattr⟩

/-- Inside a row, one column back is where the cursor was. -/
theorem bksp_place_of_lt (hx₀ : 0 ≤ s.screenX) (hx : s.screenX < numCols - 1) :
    s.Undone (s.place c).bksp := by
  have hplace : s.place c = ⟨s.mem.setCell s.cursorCell c, s.screenX + 1, s.screenY⟩ := by
    have hne : s.screenX + 1 ≠ numCols := by omega
    simp only [place, if_neg hne]
    rfl
  have hback : (s.place c).retreat = ⟨s.mem.setCell s.cursorCell c, s.screenX, s.screenY⟩ := by
    rw [hplace, retreat]
    dsimp only
    rw [Int.add_sub_cancel, if_neg (by omega)]
  rw [bksp, hback]
  exact undone_setCell s c

/-- Behind the last column, the search begins in the last column of the row. -/
theorem retreat_place_of_last (hx : s.screenX = numCols - 1) (hy : 0 ≤ s.screenY) :
    (s.place c).retreat = ⟨s.mem.setCell s.cursorCell c,
      (s.mem.setCell s.cursorCell c).trim s.screenY (numCols - 1).toNat, s.screenY⟩ := by
  have hplace : s.place c = ⟨s.mem.setCell s.cursorCell c, 0, s.screenY + 1⟩ := by
    have hend : s.screenX + 1 = numCols := by omega
    simp only [place, if_pos hend]
    rfl
  rw [hplace, retreat]
  dsimp only
  rw [if_pos (by decide), Int.add_sub_cancel, if_neg (Int.not_lt.mpr hy)]

/-- The character that stops the search is the one in column 78. -/
theorem trim_last (m : VideoMem) (y : Int) :
    m.trim y (numCols - 1).toNat = 79 ↔ m (2 * (numCols * y + 78)) ≠ 0x20 := by
  have htrim : m.trim y (numCols - 1).toNat =
      if m (2 * (numCols * y + 78)) = 0x20 then m.trim y 78 else 79 := rfl
  rw [htrim]
  split
  · rename_i hblank
    refine iff_of_false (fun heq ↦ ?_) (not_not_intro hblank)
    have hle := m.trim_le y 78
    omega
  · rename_i hchar
    exact iff_of_true rfl hchar

/-- Behind the last column, `bksp` comes back to it if the search does not move. -/
theorem bksp_place_of_last (hx : s.screenX = numCols - 1) (hy : 0 ≤ s.screenY) :
    s.Undone (s.place c).bksp ↔ s.mem (2 * (numCols * s.screenY + 78)) ≠ 0x20 := by
  have hx79 : s.screenX = 79 := hx
  -- the cell in column 78 is not the one that was written
  have hkeep : s.mem.setCell s.cursorCell c (2 * (numCols * s.screenY + 78)) =
      s.mem (2 * (numCols * s.screenY + 78)) := by
    refine (s.mem.setCell_of_ne ?_ c).1
    rw [cursorCell, hx79]
    omega
  have hstop := trim_last (s.mem.setCell s.cursorCell c) s.screenY
  rw [hkeep] at hstop
  rw [bksp, retreat_place_of_last hx hy, ← hstop]
  constructor
  · intro hundone
    have hback : (VideoMem.trim _ s.screenY (numCols - 1).toNat : Int) = s.screenX := hundone.x
    omega
  · intro h79
    have hback : ((79 : Nat) : Int) = s.screenX := hx79.symm
    rw [h79, hback]
    exact undone_setCell s c

/-- **When `bksp` undoes a `putc`.**  On any screen with the cursor in its place, and for any
character that is written without scrolling, it does if and only if the character was not written to
column 79 behind a blank in column 78. -/
theorem bksp_undoes_iff (s : Screen) (h : s.CursorOk) (c : UInt8) (hc : Placed c)
    (hscroll : ¬ (s.advance c).screenY ≥ numRows) :
    s.Undone (s.putc c).bksp ↔
      ¬ (s.screenX = 79 ∧ s.mem (2 * (numCols * s.screenY + 78)) = 0x20) := by
  rw [advance_of_placed h hc] at hscroll
  rw [putc_of_placed h hc, scrollUp_of_lt (Int.not_le.mp hscroll)]
  rcases Int.lt_or_eq_of_le (Int.le_sub_one_of_lt h.x_lt) with hlt | hlast
  · refine iff_of_true (bksp_place_of_lt h.x_nonneg hlt) ?_
    rintro ⟨heq, -⟩
    simp only [numCols] at hlt
    omega
  · rw [bksp_place_of_last hlast h.y_nonneg, not_and]
    exact ⟨fun hchar _ ↦ hchar, fun himp ↦ himp hlast⟩

/-- A blank screen, with the cursor in a column of the first row. -/
def blankScreen (x : Int) : Screen := ⟨fun a ↦ if a % 2 = 0 then 0x20 else attrib, x, 0⟩

theorem blankScreen_ok {x : Int} (h₀ : 0 ≤ x) (hx : x < numCols) : (blankScreen x).CursorOk :=
  ⟨h₀, hx, Int.le_refl 0, Int.le_of_lt numRows_pos,
    fun heq ↦ absurd (show (0 : Int) = numRows from heq) (by decide)⟩

/-- A character in the middle of a row. -/
theorem bksp_undoes_middle :
    (blankScreen 5).CursorOk ∧ Placed 0x61 ∧ ¬ ((blankScreen 5).advance 0x61).screenY ≥ numRows ∧
      (blankScreen 5).Undone ((blankScreen 5).putc 0x61).bksp := by
  have hok : (blankScreen 5).CursorOk := blankScreen_ok (by decide) (by decide)
  have hplaced : Placed 0x61 := Placed.of_printable (by decide)
  have hscroll : ¬ ((blankScreen 5).advance 0x61).screenY ≥ numRows := by decide
  refine ⟨hok, hplaced, hscroll, (bksp_undoes_iff _ hok 0x61 hplaced hscroll).mpr ?_⟩
  rintro ⟨heq, -⟩
  exact absurd heq (by decide)

/-- A character in the last column of a blank row: `bksp` stops in column 1, far from it. -/
theorem bksp_goes_too_far :
    ((blankScreen 79).putc 0x61).bksp.screenX = 1 ∧
      ¬ (blankScreen 79).Undone ((blankScreen 79).putc 0x61).bksp := by
  have hok : (blankScreen 79).CursorOk := blankScreen_ok (by decide) (by decide)
  have hput : (blankScreen 79).putc 0x61 = (blankScreen 79).place 0x61 := by
    rw [putc_of_placed hok (by decide), scrollUp_of_lt (by decide)]
  refine ⟨by decide, fun hundone ↦ ?_⟩
  rw [hput, bksp_place_of_last rfl (by decide)] at hundone
  exact hundone rfl

end Illinix.Screen
