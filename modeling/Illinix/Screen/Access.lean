import Illinix.Base.Store
import Illinix.Screen.Switch

/-!
# The cells that the screen functions touch

`putc`, `bksp`, `clear` and `switch_screen` once more, with every byte of video memory that they
load or store written down.  Forgetting the log gives the functions of `Screen.Text` and
`Screen.Switch` (`LoggedScreen.apply_screen`, `LoggedConsole.step_console`), so the invariant of the
cursor carries over, and with it the log never leaves the 80 by 25 cells: `cursor_in_reach`.

`switch_screen` does not set `active_tty`, its caller does.  Here the two are separate steps, in
any order.
-/

namespace Illinix

open Base

/-- An offset from `video_mem` that lies on the screen. -/
def OnScreen (a : Int) : Prop := 0 ≤ a ∧ a < screenSize

/-- Video memory, watched. -/
abbrev LoggedMem := Logged Int UInt8

namespace LoggedMem

def setCell (t : LoggedMem) (i : Int) (c : UInt8) : LoggedMem :=
  (t.store (2 * i) c).store (2 * i + 1) attrib

def copyCell (t : LoggedMem) (i j : Int) : LoggedMem :=
  let char := t.load (2 * j)
  let attr := (char.2.store (2 * i) char.1).load (2 * j + 1)
  attr.2.store (2 * i + 1) attr.1

def blank : Nat → Int → LoggedMem → LoggedMem
  | 0, _, t => t
  | n + 1, i, t => blank n (i + 1) (setCell t i 0x20)

def moveUp : Nat → Int → LoggedMem → LoggedMem
  | 0, _, t => t
  | n + 1, i, t => moveUp n (i + 1) (copyCell t i (i + numCols))

def scroll (t : LoggedMem) : LoggedMem :=
  blank numCols.toNat ((numRows - 1) * numCols) (moveUp ((numRows - 1) * numCols).toNat 0 t)

/-- The loop of `bksp`: the column it stops at, and the loads. -/
def trim (y : Int) : Nat → LoggedMem → Nat × LoggedMem
  | 0, t => (0, t)
  | 1, t => (1, t)
  | x + 2, t =>
      let char := t.load (2 * (numCols * y + (x + 1 : Nat)))
      if char.1 = 0x20 then trim y (x + 1) char.2 else (x + 2, char.2)

/-- `memcpy` from or to the first `n` bytes. -/
def touch (t : LoggedMem) (n : Nat) : LoggedMem :=
  { t with log := t.log ++ (List.range n).map Int.ofNat }

/-! ### Without the log -/

theorem blank_mem (n : Nat) (i : Int) (t : LoggedMem) :
    (blank n i t).mem = VideoMem.blank n i t.mem := by
  induction n generalizing i t with
  | zero => rfl
  | succ n ih => exact ih (i + 1) (setCell t i 0x20)

theorem moveUp_mem (n : Nat) (i : Int) (t : LoggedMem) :
    (moveUp n i t).mem = VideoMem.moveUp n i t.mem := by
  induction n generalizing i t with
  | zero => rfl
  | succ n ih => exact ih (i + 1) (copyCell t i (i + numCols))

theorem scroll_mem (t : LoggedMem) : (scroll t).mem = VideoMem.scroll t.mem := by
  rw [scroll, blank_mem, moveUp_mem]
  rfl

theorem trim_eq (y : Int) (x : Nat) (t : LoggedMem) :
    (trim y x t).1 = VideoMem.trim t.mem y x ∧ (trim y x t).2.mem = t.mem := by
  fun_induction trim y x t with
  | case1 t => exact ⟨rfl, rfl⟩
  | case2 t => exact ⟨rfl, rfl⟩
  | case3 x t char hblank ih => exact ⟨ih.1.trans (if_pos hblank).symm, ih.2⟩
  | case4 x t char hblank => exact ⟨(if_neg hblank).symm, rfl⟩

/-! ### The log -/

variable {t : LoggedMem}

theorem onScreen_cell {i : Int} (h₀ : 0 ≤ i) (hi : i < numRows * numCols) :
    OnScreen (2 * i) ∧ OnScreen (2 * i + 1) := by
  simp only [OnScreen, numRows, numCols, screenSize] at hi ⊢
  omega

/-- The cell in row `y` and column `x`. -/
theorem cell_bounds {x y : Int} (hx₀ : 0 ≤ x) (hx : x < numCols) (hy₀ : 0 ≤ y) (hy : y < numRows) :
    0 ≤ numCols * y + x ∧ numCols * y + x < numRows * numCols := by
  simp only [numCols, numRows] at hx hy ⊢
  omega

theorem within_setCell (h : t.Within OnScreen) {i : Int} (h₀ : 0 ≤ i) (hi : i < numRows * numCols)
    (c : UInt8) : (setCell t i c).Within OnScreen :=
  (h.store (onScreen_cell h₀ hi).1 c).store (onScreen_cell h₀ hi).2 attrib

theorem within_copyCell (h : t.Within OnScreen) {i j : Int} (hi₀ : 0 ≤ i)
    (hi : i < numRows * numCols) (hj₀ : 0 ≤ j) (hj : j < numRows * numCols) :
    (copyCell t i j).Within OnScreen := by
  obtain ⟨hchar, hattr⟩ := onScreen_cell hi₀ hi
  obtain ⟨hchar', hattr'⟩ := onScreen_cell hj₀ hj
  exact (((h.load hchar').store hchar _).load hattr').store hattr _

theorem within_blank {n : Nat} {i : Int} (h : t.Within OnScreen) (h₀ : 0 ≤ i)
    (hn : i + n ≤ numRows * numCols) : (blank n i t).Within OnScreen := by
  induction n generalizing i t with
  | zero => exact h
  | succ n ih =>
      refine ih (within_setCell h h₀ (by omega) 0x20) (Int.le_add_one h₀) ?_
      rw [Int.add_assoc, Int.add_comm 1]
      exact hn

theorem within_moveUp {n : Nat} {i : Int} (h : t.Within OnScreen) (h₀ : 0 ≤ i)
    (hn : i + n ≤ (numRows - 1) * numCols) : (moveUp n i t).Within OnScreen := by
  induction n generalizing i t with
  | zero => exact h
  | succ n ih =>
      simp only [numRows, numCols] at hn
      refine ih (within_copyCell h h₀ ?_ (Int.add_nonneg h₀ (by decide)) ?_) (Int.le_add_one h₀) ?_
      · simp only [numRows, numCols]
        omega
      · simp only [numRows, numCols]
        omega
      · simp only [numRows, numCols]
        omega

theorem within_scroll (h : t.Within OnScreen) : (scroll t).Within OnScreen :=
  within_blank (within_moveUp h (Int.le_refl 0) (by decide)) (by decide) (by decide)

theorem within_trim (h : t.Within OnScreen) {y : Int} (h₀ : 0 ≤ y) (hy : y < numRows) {x : Nat}
    (hx : x < numCols) : (trim y x t).2.Within OnScreen := by
  fun_induction trim y x t with
  | case1 t => exact h
  | case2 t => exact h
  | case3 x t char hblank ih =>
      obtain ⟨hcell₀, hcell⟩ := cell_bounds (Int.natCast_nonneg (x + 1)) (by omega) h₀ hy
      exact ih (h.load (onScreen_cell hcell₀ hcell).1) (by omega)
  | case4 x t char hblank =>
      obtain ⟨hcell₀, hcell⟩ := cell_bounds (Int.natCast_nonneg (x + 1)) (by omega) h₀ hy
      exact h.load (onScreen_cell hcell₀ hcell).1

theorem within_touch (h : t.Within OnScreen) {n : Nat} (hn : n ≤ screenSize) :
    (touch t n).Within OnScreen := by
  intro a ha
  rcases List.mem_append.mp ha with ha | ha
  · exact h a ha
  · obtain ⟨j, hj, rfl⟩ := List.mem_map.mp ha
    rw [List.mem_range] at hj
    exact ⟨Int.natCast_nonneg j, Int.lt_of_lt_of_le (Int.ofNat_lt.mpr hj) hn⟩

end LoggedMem

/-! ## The screen -/

/-- `Screen`, with the accesses to video memory. -/
structure LoggedScreen where
  video : LoggedMem
  screenX : Int
  screenY : Int

namespace LoggedScreen

/-- Forgetting the accesses. -/
def screen (t : LoggedScreen) : Screen := ⟨t.video.mem, t.screenX, t.screenY⟩

/-- The cursor moves and video memory is not touched. -/
def setCursor (t : LoggedScreen) (s : Screen) : LoggedScreen := ⟨t.video, s.screenX, s.screenY⟩

def clear (t : LoggedScreen) : LoggedScreen :=
  ⟨LoggedMem.blank (numRows * numCols).toNat 0 t.video, 0, 0⟩

def scrollUp (t : LoggedScreen) : LoggedScreen :=
  if t.screenY ≥ numRows then ⟨LoggedMem.scroll t.video, 0, t.screenY - 1⟩ else t

def place (c : UInt8) (t : LoggedScreen) : LoggedScreen :=
  let t := { t with
    video := LoggedMem.setCell t.video (numCols * t.screenY + t.screenX) c
    screenX := t.screenX + 1 }
  if t.screenX = numCols then { t with screenY := t.screenY + 1, screenX := 0 } else t

def putc (c : UInt8) (t : LoggedScreen) : LoggedScreen :=
  if c = 0 then t
  else
    let t := (t.setCursor (t.screen.advance c)).scrollUp
    if ¬ (c = 0x0a ∨ c = 0x0d ∨ c = 0x09) then t.place c else t

def retreat (t : LoggedScreen) : LoggedScreen :=
  let t := { t with screenX := t.screenX - 1 }
  if t.screenX < 0 then
    let t := { t with screenY := t.screenY - 1, screenX := numCols - 1 }
    if t.screenY < 0 then { t with screenY := 0, screenX := 0 }
    else
      let stop := LoggedMem.trim t.screenY t.screenX.toNat t.video
      { t with video := stop.2, screenX := stop.1 }
  else t

def bksp (t : LoggedScreen) : LoggedScreen :=
  let t := t.retreat
  { t with video := LoggedMem.setCell t.video (numCols * t.screenY + t.screenX) 0x20 }

def apply : ScreenOp → LoggedScreen → LoggedScreen
  | .putc c => putc c
  | .bksp => bksp
  | .clear => clear

/-! ### Without the log -/

theorem advance_mem (s : Screen) (c : UInt8) : (s.advance c).mem = s.mem := by
  simp only [Screen.advance, Screen.wrap]
  split <;> split <;> split <;> rfl

theorem screen_setCursor_advance (t : LoggedScreen) (c : UInt8) :
    (t.setCursor (t.screen.advance c)).screen = t.screen.advance c := by
  have hmem := advance_mem t.screen c
  rw [screen, setCursor, show t.video.mem = (t.screen.advance c).mem from hmem.symm]

theorem screen_scrollUp (t : LoggedScreen) : t.scrollUp.screen = t.screen.scrollUp := by
  rw [scrollUp, Screen.scrollUp]
  show _ = if t.screenY ≥ numRows then _ else _
  split
  · rw [screen, LoggedMem.scroll_mem]
    rfl
  · rfl

theorem screen_place (c : UInt8) (t : LoggedScreen) :
    (t.place c).screen = t.screen.place c := by
  by_cases hend : t.screenX + 1 = numCols
  · simp only [place, Screen.place, screen, if_pos hend]
    exact (if_pos hend).symm
  · simp only [place, Screen.place, screen, if_neg hend]
    exact (if_neg hend).symm

theorem screen_putc (c : UInt8) (t : LoggedScreen) : (t.putc c).screen = t.screen.putc c := by
  rw [putc, Screen.putc]
  split
  · rfl
  · dsimp only
    rw [← screen_setCursor_advance, ← screen_scrollUp]
    split
    · exact screen_place c _
    · rfl

theorem screen_retreat (t : LoggedScreen) : t.retreat.screen = t.screen.retreat := by
  by_cases hneg : t.screenX - 1 < 0
  · by_cases hrow : t.screenY - 1 < 0
    · simp only [retreat, Screen.retreat, screen, if_pos hneg, if_pos hrow]
      exact ((if_pos hneg).trans (if_pos hrow)).symm
    · obtain ⟨hstop, hmem⟩ := LoggedMem.trim_eq (t.screenY - 1) (numCols - 1).toNat t.video
      simp only [retreat, Screen.retreat, screen, if_pos hneg, if_neg hrow, hstop, hmem]
      exact ((if_pos hneg).trans (if_neg hrow)).symm
  · simp only [retreat, Screen.retreat, screen, if_neg hneg]
    exact (if_neg hneg).symm

/-- **The watched functions are those of the screen.** -/
theorem apply_screen (op : ScreenOp) (t : LoggedScreen) :
    (t.apply op).screen = op.apply t.screen := by
  cases op with
  | putc c => exact screen_putc c t
  | bksp =>
      show t.bksp.screen = t.screen.bksp
      rw [Screen.bksp, ← screen_retreat]
      rfl
  | clear =>
      show t.clear.screen = t.screen.clear
      rw [clear, screen, LoggedMem.blank_mem]
      rfl

/-! ### The log -/

variable {t : LoggedScreen}

theorem within_scrollUp (h : t.video.Within OnScreen) : t.scrollUp.video.Within OnScreen := by
  rw [scrollUp]
  split
  · exact LoggedMem.within_scroll h
  · exact h

theorem within_place (h : t.video.Within OnScreen) (hok : t.screen.CursorOk)
    (hy : t.screenY < numRows) (c : UInt8) : (t.place c).video.Within OnScreen := by
  obtain ⟨h₀, hlt⟩ := LoggedMem.cell_bounds hok.x_nonneg hok.x_lt hok.y_nonneg hy
  have hcell := LoggedMem.within_setCell h h₀ hlt c
  simp only [place]
  split
  · exact hcell
  · exact hcell

theorem within_putc (h : t.video.Within OnScreen) (hok : t.screen.CursorOk) (c : UInt8) :
    (t.putc c).video.Within OnScreen := by
  rw [putc]
  split
  · exact h
  · obtain ⟨hok', hy⟩ := hok.scrollUp_advance c
    rw [← screen_setCursor_advance, ← screen_scrollUp] at hok' hy
    have hscroll := within_scrollUp (t := t.setCursor (t.screen.advance c)) h
    dsimp only
    split
    · rename_i hplain
      refine within_place hscroll hok' (hy.resolve_right fun hnl ↦ hplain ?_) c
      exact hnl.imp_right Or.inl
    · exact hscroll

theorem within_bksp (h : t.video.Within OnScreen) (hok : t.screen.CursorOk) :
    t.bksp.video.Within OnScreen := by
  obtain ⟨hok', hy⟩ := hok.retreat
  rw [← screen_retreat] at hok' hy
  obtain ⟨h₀, hlt⟩ := LoggedMem.cell_bounds hok'.x_nonneg hok'.x_lt hok'.y_nonneg hy
  refine LoggedMem.within_setCell ?_ h₀ hlt 0x20
  simp only [retreat]
  split
  · split
    · exact h
    · -- the search of the row above, where the cursor was at column 0
      rename_i hneg hrow
      have hy' := hok.y_le
      refine LoggedMem.within_trim h (Int.not_lt.mp hrow) ?_ (by decide)
      exact Int.sub_right_lt_of_lt_add (Int.lt_add_one_of_le hy')
  · exact h

theorem within_clear (h : t.video.Within OnScreen) : t.clear.video.Within OnScreen := by
  have hblank : (LoggedMem.blank (numRows * numCols).toNat 0 t.video).Within OnScreen :=
    LoggedMem.within_blank h (Int.le_refl 0) (by decide)
  simp only [clear]
  exact hblank

/-- **With the cursor in its place, a function touches cells of the screen only.** -/
theorem within_apply (h : t.video.Within OnScreen) (hok : t.screen.CursorOk) (op : ScreenOp) :
    (t.apply op).video.Within OnScreen := by
  cases op with
  | putc c => exact within_putc h hok c
  | bksp => exact within_bksp h hok
  | clear => exact within_clear h

end LoggedScreen

/-! ## The console -/

/-- `Console`, with the accesses to video memory. -/
structure LoggedConsole where
  shown : LoggedScreen
  activeTty : Nat
  screenBuf : Nat → VideoMem
  screenLocBuf : Nat → Int8 × Int8

/-- A call of one of the screen functions, or an assignment to `active_tty`. -/
inductive ScreenCall
  | output (op : ScreenOp)
  | switchScreen (newTty : Nat)
  | setActive (tty : Nat)
deriving DecidableEq, Repr

namespace ScreenCall

/-- A terminal that is named exists. -/
def Ok : ScreenCall → Prop
  | output _ => True
  | switchScreen newTty => newTty < maxTty
  | setActive tty => tty < maxTty

instance : DecidablePred Ok
  | output _ => inferInstanceAs (Decidable True)
  | switchScreen newTty => inferInstanceAs (Decidable (newTty < maxTty))
  | setActive tty => inferInstanceAs (Decidable (tty < maxTty))

/-- The call on a console. -/
def apply (c : Console) : ScreenCall → Console
  | output op => c.output op
  | switchScreen newTty => c.switchScreen newTty
  | setActive tty => { c with activeTty := tty }

end ScreenCall

namespace LoggedConsole

/-- Forgetting the accesses. -/
def console (c : LoggedConsole) : Console :=
  ⟨c.shown.screen, c.activeTty, c.screenBuf, c.screenLocBuf⟩

/-- `switch_screen`: a `memcpy` from video memory, `clear`, and a `memcpy` to video memory. -/
def switchScreen (c : LoggedConsole) (newTty : Nat) : LoggedConsole :=
  let saved := c.console.save
  let cleared :=
    LoggedScreen.clear { c.shown with video := LoggedMem.touch c.shown.video screenSize.toNat }
  let video := LoggedMem.touch cleared.video screenSize.toNat
  { c with
    shown := ⟨{ video with mem := memcpy video.mem (saved.screenBuf newTty) screenSize },
      (saved.screenLocBuf newTty).1.toInt, (saved.screenLocBuf newTty).2.toInt⟩
    screenBuf := saved.screenBuf
    screenLocBuf := saved.screenLocBuf }

def step (c : LoggedConsole) : ScreenCall → LoggedConsole
  | .output op => { c with shown := c.shown.apply op }
  | .switchScreen newTty => c.switchScreen newTty
  | .setActive tty => { c with activeTty := tty }

def run (c : LoggedConsole) (calls : List ScreenCall) : LoggedConsole := calls.foldl step c

/-- The kernel's variables before any output, and no access so far. -/
def boot (mem : VideoMem) : LoggedConsole := ⟨⟨⟨mem, []⟩, 0, 0⟩, 0, fun _ _ ↦ 0, fun _ ↦ (0, 0)⟩

/-- **The watched calls are those of the console.** -/
theorem step_console (c : LoggedConsole) (call : ScreenCall) :
    (c.step call).console = call.apply c.console := by
  cases call with
  | output op =>
      simp only [step, console, LoggedScreen.apply_screen]
      rfl
  | switchScreen newTty =>
      have hclear := LoggedMem.blank_mem (numRows * numCols).toNat 0
        (LoggedMem.touch c.shown.video screenSize.toNat)
      simp only [step, switchScreen, LoggedScreen.clear, console, LoggedScreen.screen,
        ScreenCall.apply, Console.switchScreen, Console.restore, Console.save, Screen.clear,
        LoggedMem.touch] at hclear ⊢
      rw [hclear]
  | setActive tty => rfl

/-- The cursor is in its place, those that are saved are too, and no access left the screen. -/
structure Ok (c : LoggedConsole) : Prop where
  active_lt : c.activeTty < maxTty
  cursor : c.shown.screen.CursorOk
  saved : ∀ t, t < maxTty → (c.console.saved t).CursorOk
  within : c.shown.video.Within OnScreen

theorem boot_ok (mem : VideoMem) : (boot mem).Ok where
  active_lt := Nat.zero_lt_succ _
  cursor := ⟨Int.le_refl 0, numCols_pos, Int.le_refl 0, Int.le_of_lt numRows_pos, fun _ ↦ rfl⟩
  saved _ _ := ⟨Int.le_refl 0, numCols_pos, Int.le_refl 0, Int.le_of_lt numRows_pos, fun _ ↦ rfl⟩
  within _ ha := absurd ha List.not_mem_nil

namespace Ok

variable {c : LoggedConsole}

/-- What `switch_screen` has saved, cursor for cursor. -/
theorem save_saved (h : c.Ok) {t : Nat} (ht : t < maxTty) : (c.console.save.saved t).CursorOk := by
  rcases eq_or_ne t c.activeTty with rfl | hne
  · exact (Console.save_saved_active (c := c.console) h.cursor).symm.cursorOk h.cursor
  · rw [Console.save_saved_of_ne c.console hne]
    exact h.saved t ht

theorem switchScreen (h : c.Ok) {newTty : Nat} (ht : newTty < maxTty) :
    (c.switchScreen newTty).Ok where
  active_lt := h.active_lt
  cursor := by
    have hsaved := h.save_saved ht
    exact ⟨hsaved.x_nonneg, hsaved.x_lt, hsaved.y_nonneg, hsaved.y_le, hsaved.below⟩
  saved t ht' := h.save_saved ht'
  within := by
    have hread := LoggedMem.within_touch h.within (n := screenSize.toNat) (by decide)
    have hclear := LoggedScreen.within_clear (t := { c.shown with
      video := LoggedMem.touch c.shown.video screenSize.toNat }) hread
    have hwrite := LoggedMem.within_touch hclear (n := screenSize.toNat) (by decide)
    intro a ha
    exact hwrite a ha

/-- One call. -/
theorem step (h : c.Ok) {call : ScreenCall} (hcall : call.Ok) : (c.step call).Ok := by
  cases call with
  | output op =>
      refine ⟨h.active_lt, ?_, h.saved, LoggedScreen.within_apply h.within h.cursor op⟩
      show (c.shown.apply op).screen.CursorOk
      rw [LoggedScreen.apply_screen]
      exact h.cursor.apply op
  | switchScreen newTty => exact h.switchScreen hcall
  | setActive tty => exact ⟨hcall, h.cursor, h.saved, h.within⟩

/-- A whole run. -/
theorem run (h : c.Ok) {calls : List ScreenCall} (hcalls : ∀ call ∈ calls, call.Ok) :
    (c.run calls).Ok := by
  induction calls generalizing c with
  | nil => exact h
  | cons call calls ih =>
      exact ih (h.step (hcalls call List.mem_cons_self))
        fun call' hmem ↦ hcalls call' (List.mem_cons_of_mem call hmem)

end Ok

/-- **The cursor stays in reach of the screen.**  After any calls of the screen functions, with any
characters, from the state at boot, the cursor is on the screen or at the start of the row below it,
and all that the calls have read or written in video memory is one of the 80 by 25 cells. -/
theorem cursor_in_reach (mem : VideoMem) (calls : List ScreenCall)
    (hcalls : ∀ call ∈ calls, call.Ok) :
    let s := ((boot mem).run calls).shown
    (0 ≤ s.screenX ∧ s.screenX < 80) ∧ (0 ≤ s.screenY ∧ s.screenY ≤ 25) ∧
      (s.screenY = 25 → s.screenX = 0) ∧ ∀ a ∈ s.video.log, 0 ≤ a / 2 ∧ a / 2 ≤ 80 * 25 - 1 := by
  obtain ⟨-, ⟨hx₀, hx, hy₀, hy, hbelow⟩, -, hlog⟩ := (boot_ok mem).run hcalls
  refine ⟨⟨hx₀, hx⟩, ⟨hy₀, hy⟩, hbelow, fun a ha ↦ ?_⟩
  obtain ⟨ha₀, halt⟩ := hlog a ha
  simp only [screenSize] at halt
  omega

/-- A character, a switch to the second terminal and a backspace there. -/
theorem cursor_in_reach_two_terminals :
    (∀ call ∈ [ScreenCall.output (.putc 0x61), .switchScreen 1, .setActive 1, .output .bksp],
      call.Ok) ∧
      0 ≤ ((boot fun _ ↦ 0).run
        [.output (.putc 0x61), .switchScreen 1, .setActive 1, .output .bksp]).shown.screenX := by
  have hcalls : ∀ call ∈ [ScreenCall.output (.putc 0x61), .switchScreen 1, .setActive 1,
      .output .bksp], call.Ok := by decide
  exact ⟨hcalls, (cursor_in_reach (fun _ ↦ 0) _ hcalls).1.1⟩

end LoggedConsole

end Illinix
