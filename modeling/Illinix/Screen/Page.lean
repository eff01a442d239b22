import Illinix.Lib.Printf
import Illinix.Screen.Backspace

/-!
# The screen as the end of a page

What the output functions are for: a `Page` is as long as the text, 80 columns wide, and it never
scrolls.  The screen is meant to show 25 rows of it, the first of which is the number of times that
the screen has scrolled.

`putc` scrolls by one row at most.  It scrolls at once for a newline in the last row, and it leaves
the scrolling to the next character when the last row is full; a newline may then leave the cursor
below the screen once more.  `Shows` is the simulation relation that is kept by all of this
(`Shows.putc`), and `puts_shows_page` is the result for a whole text.
-/

namespace Illinix

/-! ## The page -/

/-- A page without an end, and the place where the next character goes. -/
structure Page where
  cell : Nat → Nat → UInt8 × UInt8
  row : Nat
  col : Nat

namespace Page

/-- A blank cell, with the default attribute. -/
def blankCell : UInt8 × UInt8 := (0x20, attrib)

def empty : Page := ⟨fun _ _ ↦ blankCell, 0, 0⟩

def newline (p : Page) : Page := { p with row := p.row + 1, col := 0 }

/-- A character in the place of the cursor; behind the last column a new row begins. -/
def place (p : Page) (c : UInt8) : Page :=
  let cell := Function.update p.cell p.row (Function.update (p.cell p.row) p.col (c, attrib))
  if p.col = 79 then ⟨cell, p.row + 1, 0⟩ else ⟨cell, p.row, p.col + 1⟩

def putc (p : Page) (c : UInt8) : Page := if c = 0x0a ∨ c = 0x0d then p.newline else p.place c

def print (p : Page) (text : List UInt8) : Page := text.foldl putc p

/-- Nothing is written from the cursor on. -/
structure Fresh (p : Page) : Prop where
  col_lt : p.col < 80
  row : ∀ c, p.col ≤ c → p.cell p.row c = blankCell
  below : ∀ r c, p.row < r → p.cell r c = blankCell

theorem Fresh.newline {p : Page} (h : p.Fresh) : p.newline.Fresh where
  col_lt := Nat.zero_lt_succ 79
  row c _ := h.below _ c (Nat.lt_succ_self p.row)
  below r c hr := h.below r c (Nat.lt_of_succ_lt hr)

theorem Fresh.place {p : Page} (h : p.Fresh) (c : UInt8) : (p.place c).Fresh := by
  have hbelow : ∀ r c', p.row < r → Function.update p.cell p.row
      (Function.update (p.cell p.row) p.col (c, attrib)) r c' = blankCell := by
    intro r c' hr
    rw [Function.update_of_ne hr.ne']
    exact h.below r c' hr
  rw [Page.place]
  split
  · exact ⟨Nat.zero_lt_succ 79, fun c' _ ↦ hbelow _ c' (Nat.lt_succ_self p.row),
      fun r c' hr ↦ hbelow r c' (Nat.lt_of_succ_lt hr)⟩
  · rename_i hcol
    have hlt := h.col_lt
    refine ⟨by show p.col + 1 < 80; omega, fun c' hc' ↦ ?_, hbelow⟩
    have hc : p.col < c' := hc'
    show Function.update p.cell p.row (Function.update (p.cell p.row) p.col (c, attrib)) p.row c' = _
    rw [Function.update_self, Function.update_of_ne hc.ne']
    exact h.row c' hc.le

end Page

/-! ## Printing -/

namespace Screen

/-- A sequence of `putc` calls. -/
def print (s : Screen) (text : List UInt8) : Screen := text.foldl (fun s c ↦ s.putc c) s

/-- Whether `putc` scrolls. -/
def Scrolls (s : Screen) (c : UInt8) : Prop := c ≠ 0 ∧ (s.advance c).screenY ≥ numRows

instance (s : Screen) (c : UInt8) : Decidable (s.Scrolls c) := inferInstanceAs (Decidable (_ ∧ _))

/-- How often the screen scrolls while a text is printed. -/
def scrolls : Screen → List UInt8 → Nat
  | _, [] => 0
  | s, c :: text => (if s.Scrolls c then 1 else 0) + scrolls (s.putc c) text

/-- The loop of `puts`; `2 ^ 32` is its bound as for `strlen`. -/
def putsFrom (str : Bytes) : Nat → Nat → Screen → Nat × Screen
  | 0, index, s => (index, s)
  | fuel + 1, index, s =>
      if str index ≠ 0 then putsFrom str fuel (index + 1) (s.putc (str index)) else (index, s)

/-- `puts`. -/
def puts (str : Bytes) (s : Screen) : Nat × Screen := putsFrom str (2 ^ 32) 0 s

/-- What the loop prints: the string from `index` on. -/
theorem putsFrom_eq (str : Bytes) (fuel index : Nat) (s : Screen) :
    putsFrom str fuel index s =
      (index + (cstrFrom str fuel index).length, s.print (cstrFrom str fuel index)) := by
  induction fuel generalizing index s with
  | zero => rfl
  | succ fuel ih =>
      rw [putsFrom, cstrFrom]
      by_cases hend : str index = 0
      · rw [if_neg (not_not_intro hend), if_pos hend]
        rfl
      · rw [if_pos hend, if_neg hend, ih, List.length_cons, Nat.add_assoc, Nat.add_comm 1]
        rfl

/-- `puts` prints the string and returns its length. -/
theorem puts_eq {str : Bytes} {text : List UInt8} (h : str.Holds text)
    (hlen : text.length < 2 ^ 32) (s : Screen) : puts str s = (text.length, s.print text) := by
  have hstr : cstrFrom str (2 ^ 32) 0 = text := h.cstr_eq hlen
  rw [puts, putsFrom_eq, hstr, Nat.zero_add]

end Screen

/-! ## Scrolling, cell by cell -/

namespace VideoMem

/-- Character and attribute in row `r` and column `c`. -/
def cell (m : VideoMem) (r c : Nat) : UInt8 × UInt8 :=
  (m (2 * (numCols * r + c)), m (2 * (numCols * r + c) + 1))

theorem copyCell_apply (m : VideoMem) {i j : Int} (h : i < j) (a : Int) :
    m.copyCell i j a =
      if a = 2 * i + 1 then m (2 * j + 1) else if a = 2 * i then m (2 * j) else m a := by
  have hattr : Function.update m (2 * i) (m (2 * j)) (2 * j + 1) = m (2 * j + 1) :=
    Function.update_of_ne (by omega) _ _
  simp only [copyCell, hattr, Function.update_apply]

theorem blank_apply (n : Nat) (i : Int) (m : VideoMem) (a : Int) :
    m.blank n i a =
      if 2 * i ≤ a ∧ a < 2 * (i + n) then (if a % 2 = 0 then 0x20 else attrib) else m a := by
  induction n generalizing i m with
  | zero => rw [blank, if_neg (by omega)]
  | succ n ih =>
      rw [blank, ih, setCell_apply]
      by_cases hin : 2 * i ≤ a ∧ a < 2 * (i + (n + 1 : Nat))
      · rw [if_pos hin]
        by_cases hlater : 2 * (i + 1) ≤ a ∧ a < 2 * (i + 1 + n)
        · rw [if_pos hlater]
        · rw [if_neg hlater]
          -- the cell that this round blanks
          by_cases hattr : a = 2 * i + 1
          · rw [if_pos hattr, if_neg (by omega)]
          · rw [if_neg hattr, if_pos (by omega), if_pos (by omega)]
      · rw [if_neg hin, if_neg (by omega), if_neg (by omega), if_neg (by omega)]

/-- The cells are copied in place, upwards: a cell is read before it is written. -/
theorem moveUp_apply (n : Nat) (i : Int) (m : VideoMem) (a : Int) :
    m.moveUp n i a = if 2 * i ≤ a ∧ a < 2 * (i + n) then m (a + 2 * numCols) else m a := by
  induction n generalizing i m with
  | zero => rw [moveUp, if_neg (by omega)]
  | succ n ih =>
      have hcols : numCols = 80 := rfl
      rw [moveUp, ih, copyCell_apply m (by omega), copyCell_apply m (by omega)]
      by_cases hlater : 2 * (i + 1) ≤ a ∧ a < 2 * (i + 1 + n)
      · rw [if_pos hlater, if_neg (by omega), if_neg (by omega), if_pos (by omega)]
      · rw [if_neg hlater]
        by_cases hattr : a = 2 * i + 1
        · rw [if_pos hattr, if_pos (by omega), hattr]
          congr 1
          omega
        · rw [if_neg hattr]
          by_cases hchar : a = 2 * i
          · rw [if_pos hchar, if_pos (by omega), hchar]
            congr 1
            omega
          · rw [if_neg hchar, if_neg (by omega)]

theorem blank_cell {n : Nat} {i : Int} (m : VideoMem) {r c : Nat} (hlo : i ≤ numCols * r + c)
    (hhi : numCols * r + c < i + n) : (m.blank n i).cell r c = Page.blankCell := by
  rw [cell, blank_apply, blank_apply, if_pos (by omega), if_pos (by omega), if_pos (by omega),
    if_neg (by omega)]
  rfl

theorem blank_cell_of_lt {n : Nat} {i : Int} (m : VideoMem) {r c : Nat}
    (h : numCols * r + c < i) : (m.blank n i).cell r c = m.cell r c := by
  rw [cell, blank_apply, blank_apply, if_neg (by omega), if_neg (by omega), cell]

theorem moveUp_cell {n : Nat} {i : Int} (m : VideoMem) {r c : Nat} (hlo : i ≤ numCols * r + c)
    (hhi : numCols * r + c < i + n) : (m.moveUp n i).cell r c = m.cell (r + 1) c := by
  have hsum : 2 * (numCols * (r + 1 : Nat) + c) = 2 * (numCols * r + c) + 2 * numCols := by
    simp only [numCols]
    omega
  rw [cell, moveUp_apply, moveUp_apply, if_pos (by omega), if_pos (by omega), cell, hsum,
    Int.add_right_comm _ 1]

/-- A scrolled screen shows the row below, -/
theorem scroll_cell_of_lt (m : VideoMem) {r c : Nat} (hr : r < 24) (hc : c < 80) :
    m.scroll.cell r c = m.cell (r + 1) c := by
  have hlast : (numRows - 1) * numCols = 1920 := rfl
  rw [scroll, hlast, blank_cell_of_lt, moveUp_cell]
  · simp only [numCols]
    omega
  · simp only [numCols]
    omega
  · simp only [numCols]
    omega

/-- and blanks in the last row. -/
theorem scroll_cell_last (m : VideoMem) {c : Nat} (hc : c < 80) :
    m.scroll.cell 24 c = Page.blankCell := by
  have hlast : (numRows - 1) * numCols = 1920 := rfl
  have hcount : (numCols.toNat : Int) = 80 := rfl
  rw [scroll, hlast, blank_cell]
  · simp only [numCols]
    omega
  · rw [hcount]
    simp only [numCols]
    omega

/-- A character in one cell, seen from any cell. -/
theorem setCell_cell (m : VideoMem) {r c r' c' : Nat} (hc : c < 80) (hc' : c' < 80) (x : UInt8) :
    (m.setCell (numCols * r + c) x).cell r' c' =
      if r' = r ∧ c' = c then (x, attrib) else m.cell r' c' := by
  simp only [cell, numCols, setCell_apply]
  by_cases h : r' = r ∧ c' = c
  · obtain ⟨rfl, rfl⟩ := h
    simp only [and_self, if_true]
    rw [if_neg (by omega)]
  · rw [if_neg h, if_neg (by omega), if_neg (by omega), if_neg (by omega), if_neg (by omega)]

end VideoMem

/-! ## The simulation -/

/-- Video memory holds 25 rows of a page, from row `d` on. -/
def ShowsRows (m : VideoMem) (d : Nat) (cell : Nat → Nat → UInt8 × UInt8) : Prop :=
  ∀ r c, r < 25 → c < 80 → m.cell r c = cell (d + r) c

theorem ShowsRows.scroll {m : VideoMem} {d : Nat} {cell : Nat → Nat → UInt8 × UInt8}
    (h : ShowsRows m d cell) (hnext : ∀ c, cell (d + 25) c = Page.blankCell) :
    ShowsRows m.scroll (d + 1) cell := by
  intro r c hr hc
  rcases Nat.lt_or_eq_of_le (Nat.le_of_lt_succ hr) with hlt | rfl
  · rw [m.scroll_cell_of_lt hlt hc, h (r + 1) c (by omega) hc, Nat.add_assoc, Nat.add_comm 1]
  · rw [m.scroll_cell_last hc]
    exact (hnext c).symm

theorem ShowsRows.setCell {m : VideoMem} {d : Nat} {cell : Nat → Nat → UInt8 × UInt8}
    (h : ShowsRows m d cell) {r c : Nat} (hc : c < 80) (x : UInt8) :
    ShowsRows (m.setCell (numCols * r + c) x) d
      (Function.update cell (d + r) (Function.update (cell (d + r)) c (x, attrib))) := by
  intro r' c' hr' hc'
  rw [m.setCell_cell hc hc']
  by_cases hrow : r' = r
  · subst hrow
    rw [Function.update_self, Function.update_apply]
    by_cases hcol : c' = c
    · rw [if_pos ⟨rfl, hcol⟩, if_pos hcol]
    · rw [if_neg fun hboth ↦ hcol hboth.2, if_neg hcol]
      exact h r' c' hr' hc'
  · rw [if_neg fun hboth ↦ hrow hboth.1, Function.update_of_ne (by omega)]
    exact h r' c' hr' hc'

/-- The screen shows the page from row `d` on, and its cursor is that of the page. -/
structure Shows (s : Screen) (d : Nat) (p : Page) : Prop where
  cursor : s.CursorOk
  fresh : p.Fresh
  rows : ShowsRows s.mem d p.cell
  x : s.screenX = p.col
  y : s.screenY + d = p.row

namespace Shows

variable {s : Screen} {d : Nat} {p : Page} {c : UInt8}

/-- The row below the screen is blank: the cursor is at its start at the furthest. -/
theorem next_row (h : Shows s d p) (c : Nat) :
    p.cell (d + 25) c = Page.blankCell := by
  have hrow := h.y
  rcases Nat.lt_or_ge p.row (d + 25) with hlt | hge
  · exact h.fresh.below _ c hlt
  · -- the cursor is below the screen, at the start of the row
    have hle := h.cursor.y_le
    have hbelow := h.cursor.below
    simp only [numRows] at hle hbelow
    have hx : s.screenX = 0 := hbelow (by omega)
    have hcol : p.col = 0 := by
      have := h.x
      omega
    have heq : p.row = d + 25 := by omega
    rw [← heq]
    exact h.fresh.row c (by omega)

/-- The two newlines are none of the other characters that `putc` looks for. -/
theorem newline_ne (hc : c = 0x0a ∨ c = 0x0d) : c ≠ 0 ∧ c ≠ 0x09 := by
  rcases hc with rfl | rfl
  · decide
  · decide

theorem advance_newline (hc : c = 0x0a ∨ c = 0x0d) (s : Screen) :
    s.advance c = ⟨s.mem, 0, s.screenY + 1⟩ := by
  have htab := (newline_ne hc).2
  simp only [Screen.advance, if_pos hc, if_neg htab, Screen.wrap]
  exact if_neg (by decide)

theorem putc_newline (hc : c = 0x0a ∨ c = 0x0d) (s : Screen) :
    s.putc c = (s.advance c).scrollUp := by
  have hzero := (newline_ne hc).1
  have hctrl : ¬ ¬ (c = 0x0a ∨ c = 0x0d ∨ c = 0x09) := not_not_intro (hc.imp_right Or.inl)
  simp only [Screen.putc, if_neg hzero, if_neg hctrl]

/-- A newline, with at most one row of scrolling. -/
theorem newline (h : Shows s d p) (hc : c = 0x0a ∨ c = 0x0d) :
    Shows (s.putc c) (if s.Scrolls c then d + 1 else d) p.newline := by
  have hzero := (newline_ne hc).1
  have hrow := h.y
  have hcursor := h.cursor.putc c
  have hscrolls : s.Scrolls c ↔ s.screenY + 1 ≥ numRows := by
    rw [Screen.Scrolls, advance_newline hc]
    exact and_iff_right hzero
  rw [putc_newline hc, advance_newline hc] at hcursor ⊢
  rw [if_congr hscrolls rfl rfl]
  by_cases hscroll : s.screenY + 1 ≥ numRows
  · rw [Screen.scrollUp, if_pos hscroll] at hcursor ⊢
    rw [if_pos hscroll]
    refine ⟨hcursor, h.fresh.newline, h.rows.scroll h.next_row, rfl, ?_⟩
    show s.screenY + 1 - 1 + (d + 1 : Nat) = (p.row + 1 : Nat)
    omega
  · rw [Screen.scrollUp, if_neg hscroll] at hcursor ⊢
    rw [if_neg hscroll]
    refine ⟨hcursor, h.fresh.newline, h.rows, rfl, ?_⟩
    show s.screenY + 1 + (d : Int) = (p.row + 1 : Nat)
    omega

/-- Scrolling that is left over from a full last row. -/
theorem scrollUp (h : Shows s d p) :
    Shows s.scrollUp (if s.screenY ≥ numRows then d + 1 else d) p ∧
      s.scrollUp.screenY < numRows := by
  rw [Screen.scrollUp]
  split
  · rename_i hge
    have heq : s.screenY = 25 := Int.le_antisymm h.cursor.y_le hge
    have hrow := h.y
    refine ⟨⟨?_, h.fresh, h.rows.scroll h.next_row, ?_, ?_⟩, ?_⟩
    · refine ⟨Int.le_refl 0, numCols_pos, ?_, ?_, fun _ ↦ rfl⟩
      · show 0 ≤ s.screenY - 1
        omega
      · show s.screenY - 1 ≤ 25
        omega
    · exact (h.cursor.below heq).symm.trans h.x
    · show s.screenY - 1 + (d + 1 : Nat) = p.row
      omega
    · show s.screenY - 1 < 25
      omega
  · rename_i hlt
    exact ⟨h, Int.not_le.mp hlt⟩

/-- A character on the screen and on the page. -/
theorem place (h : Shows s d p) (hy : s.screenY < numRows) (c : UInt8) :
    Shows (s.place c) d (p.place c) := by
  have hrow := h.y
  have hx := h.x
  have hy₀ := h.cursor.y_nonneg
  have hcursor := h.cursor.place hy c
  have hfresh := h.fresh.place c
  obtain ⟨r, hr⟩ := Int.eq_ofNat_of_zero_le hy₀
  have hprow : p.row = d + r := by omega
  have hcell : numCols * s.screenY + s.screenX = numCols * (r : Int) + (p.col : Int) := by
    rw [hr, hx]
  have hrows := h.rows.setCell (r := r) h.fresh.col_lt c
  rw [← hcell, ← hprow] at hrows
  by_cases hend : p.col = 79
  · have hend' : s.screenX + 1 = numCols := by
      rw [hx, hend]
      rfl
    simp only [Screen.place, if_pos hend', Page.place, if_pos hend] at hcursor hfresh ⊢
    refine ⟨hcursor, hfresh, hrows, rfl, ?_⟩
    show s.screenY + 1 + (d : Int) = (p.row + 1 : Nat)
    omega
  · have hend' : s.screenX + 1 ≠ numCols := by
      simp only [numCols]
      omega
    simp only [Screen.place, if_neg hend', Page.place, if_neg hend] at hcursor hfresh ⊢
    refine ⟨hcursor, hfresh, hrows, ?_, hrow⟩
    show s.screenX + 1 = (p.col + 1 : Nat)
    omega

/-- **One character.** -/
theorem putc (h : Shows s d p) (hzero : c ≠ 0) (htab : c ≠ 0x09) :
    Shows (s.putc c) (if s.Scrolls c then d + 1 else d) (p.putc c) := by
  rw [Page.putc]
  by_cases hnl : c = 0x0a ∨ c = 0x0d
  · rw [if_pos hnl]
    exact h.newline hnl
  · rw [if_neg hnl]
    have hplaced : Screen.Placed c :=
      ⟨hzero, htab, fun heq ↦ hnl (Or.inl heq), fun heq ↦ hnl (Or.inr heq)⟩
    obtain ⟨hshows, hy⟩ := h.scrollUp
    have hscrolls : s.Scrolls c ↔ s.screenY ≥ numRows := by
      rw [Screen.Scrolls, Screen.advance_of_placed h.cursor hplaced]
      exact and_iff_right hzero
    rw [Screen.putc_of_placed h.cursor hplaced, if_congr hscrolls rfl rfl]
    exact hshows.place hy c

/-- **A whole text.** -/
theorem print (h : Shows s d p) {text : List UInt8} (htext : ∀ x ∈ text, x ≠ 0 ∧ x ≠ 0x09) :
    Shows (s.print text) (d + s.scrolls text) (p.print text) := by
  induction text generalizing s d p with
  | nil => exact h
  | cons c text ih =>
      obtain ⟨hzero, htab⟩ := htext c List.mem_cons_self
      have hrest := ih (h.putc hzero htab) fun x hx ↦ htext x (List.mem_cons_of_mem c hx)
      have hsum : d + s.scrolls (c :: text) =
          (if s.Scrolls c then d + 1 else d) + (s.putc c).scrolls text := by
        rw [Screen.scrolls]
        split <;> omega
      rw [hsum]
      exact hrest

/-- A cleared screen shows the beginning of an empty page. -/
theorem clear (s : Screen) : Shows s.clear 0 Page.empty where
  cursor := Screen.CursorOk.clear s
  fresh := ⟨Nat.zero_lt_succ 79, fun _ _ ↦ rfl, fun _ _ _ ↦ rfl⟩
  rows r c hr hc := by
    have hcount : ((numRows * numCols).toNat : Int) = 2000 := by decide
    simp only [Screen.clear]
    apply VideoMem.blank_cell
    · simp only [numCols]
      omega
    · rw [hcount]
      simp only [numCols]
      omega
  x := rfl
  y := rfl

end Shows

/-- **The screen shows the end of the page.**  Print any text without NULs and tabs on a cleared
screen, and count how often it scrolls.  Every cell of the screen is the one that many rows down the
page, the cursor is that of the page moved up by as many rows, and it is at most one row below the
screen.  `puts` prints the text as the `putc` calls do. -/
theorem puts_shows_page (s : Screen) (text : List UInt8)
    (htext : ∀ x ∈ text, x ≠ 0 ∧ x ≠ 0x09) :
    let shown := s.clear.print text
    let d := s.clear.scrolls text
    let page := Page.empty.print text
    (∀ r c, r < 25 → c < 80 → shown.mem.cell r c = page.cell (d + r) c) ∧
      shown.screenX = page.col ∧ shown.screenY = (page.row : Int) - d ∧ shown.screenY ≤ 25 ∧
      ∀ str : Bytes, str.Holds text → text.length < 2 ^ 31 →
        Screen.puts str s.clear = (text.length, shown) := by
  have hshows := (Shows.clear s).print htext
  rw [Nat.zero_add] at hshows
  refine ⟨hshows.rows, hshows.x, ?_, hshows.cursor.y_le, fun str hstr hlen ↦ ?_⟩
  · have hrow := hshows.y
    omega
  · exact Screen.puts_eq hstr (hlen.trans (by decide)) s.clear

/-- The text of a line and a half. -/
theorem puts_shows_page_two_lines :
    (∀ x ∈ [0x61, 0x0a, (0x62 : UInt8)], x ≠ 0 ∧ x ≠ 0x09) ∧
      ((Screen.blankScreen 0).clear.print [0x61, 0x0a, 0x62]).screenX = 1 := by
  have htext : ∀ x ∈ [0x61, 0x0a, (0x62 : UInt8)], x ≠ 0 ∧ x ≠ 0x09 := by simp
  exact ⟨htext, (puts_shows_page (Screen.blankScreen 0) _ htext).2.1⟩

end Illinix
