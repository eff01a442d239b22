import Illinix.Process.Kernel
import Illinix.Screen.Text

/-!
# One screen for three terminals

The kernel has one text screen.  `switch_screen` saves what it shows for the terminal that
is left, and shows what was saved for the terminal that is entered; the cursor is kept in
two `char`s.  Output goes to the screen, whatever terminal it shows.

Over this stands `Screens`, where every terminal has a screen and a cursor of its own and
an output is applied to the active one.  `Console.screens` reads the three screens off a
console, from video memory for the active terminal and from the buffers for the others: an
output changes the active one of them as it should (`Console.Valid.output`), a switch
changes none (`Console.Valid.switchTo`), and so the console simulates the three screens.
-/

namespace Illinix

/-- `memcpy(dst, src, n)`, for two regions that do not overlap. -/
def memcpy (dst src : VideoMem) (n : Int) : VideoMem :=
  fun a ↦ if 0 ≤ a ∧ a < n then src a else dst a

theorem memcpy_sameCells (dst src : VideoMem) : (memcpy dst src screenSize).SameCells src :=
  fun _ h₀ hlt ↦ if_pos ⟨h₀, hlt⟩

/-- The screen, and the variables that `switch_screen` saves it in. -/
structure Console where
  screen : Screen
  activeTty : Nat
  screenBuf : Nat → VideoMem
  screenLocBuf : Nat → Int8 × Int8

/-- What can happen to the screen. -/
inductive ConsoleOp
  | output (op : ScreenOp)
  | switchTo (tty : Nat)
deriving DecidableEq, Repr

namespace ConsoleOp

/-- There are `MAX_TTY` terminals to switch to. -/
def Ok : ConsoleOp → Prop
  | output _ => True
  | switchTo tty => tty < maxTty

instance : DecidablePred Ok
  | output _ => inferInstanceAs (Decidable True)
  | switchTo tty => inferInstanceAs (Decidable (tty < maxTty))

end ConsoleOp

/-! ## The console -/

namespace Console

/-- What is saved for a terminal. -/
def saved (c : Console) (t : Nat) : Screen :=
  ⟨c.screenBuf t, (c.screenLocBuf t).1.toInt, (c.screenLocBuf t).2.toInt⟩

/-- `switch_screen` up to `clear`: the screen is saved for the active terminal. -/
def save (c : Console) : Console :=
  { c with
    screenBuf := Function.update c.screenBuf c.activeTty
      (memcpy (c.screenBuf c.activeTty) c.screen.mem screenSize)
    screenLocBuf := Function.update c.screenLocBuf c.activeTty
      (Int8.ofInt c.screen.screenX, Int8.ofInt c.screen.screenY) }

/-- `switch_screen` from `clear` on: what was saved for the new terminal is shown. -/
def restore (c : Console) (newTty : Nat) : Console :=
  { c with screen :=
    ⟨memcpy c.screen.clear.mem (c.screenBuf newTty) screenSize,
      (c.screenLocBuf newTty).1.toInt, (c.screenLocBuf newTty).2.toInt⟩ }

/-- `switch_screen`. -/
def switchScreen (c : Console) (newTty : Nat) : Console := c.save.restore newTty

/-- `switch_to_tty` up to the new `active_tty`. -/
def switchTo (c : Console) (tty : Nat) : Console :=
  { c.switchScreen tty with activeTty := tty }

def output (c : Console) (op : ScreenOp) : Console := { c with screen := op.apply c.screen }

def step (c : Console) : ConsoleOp → Console
  | .output op => c.output op
  | .switchTo tty => c.switchTo tty

def run (c : Console) (ops : List ConsoleOp) : Console := ops.foldl step c

/-- The kernel's variables before any output; video memory holds anything. -/
def boot (mem : VideoMem) : Console := ⟨⟨mem, 0, 0⟩, 0, fun _ _ ↦ 0, fun _ ↦ (0, 0)⟩

end Console

/-! ## A screen for every terminal -/

/-- The active terminal, and a screen for each. -/
structure Screens where
  active : Nat
  screen : Nat → Screen

namespace Screens

/-- Output goes to the active terminal only; a switch changes no screen. -/
def step (a : Screens) : ConsoleOp → Screens
  | .output op =>
      { a with screen := Function.update a.screen a.active (op.apply (a.screen a.active)) }
  | .switchTo tty => { a with active := tty }

def run (a : Screens) (ops : List ConsoleOp) : Screens := ops.foldl step a

/-- The terminals show the same, cell by cell, with the same cursors. -/
structure Same (a a' : Screens) : Prop where
  active : a.active = a'.active
  screen : ∀ t, t < maxTty → (a.screen t).Same (a'.screen t)

theorem Same.refl (a : Screens) : a.Same a := ⟨rfl, fun t _ ↦ Screen.Same.refl (a.screen t)⟩

/-- Output to the active terminal. -/
theorem step_output_active (a : Screens) (op : ScreenOp) :
    (a.step (.output op)).screen a.active = op.apply (a.screen a.active) :=
  Function.update_self _ _ _

/-- A terminal that is not the active one keeps its screen. -/
theorem step_of_ne (a : Screens) {t : Nat} (h : t ≠ a.active) (op : ConsoleOp) :
    (a.step op).screen t = a.screen t := by
  cases op with
  | output op => exact Function.update_of_ne h _ _
  | switchTo tty => rfl

/-- A terminal that is left and not returned to keeps its screen. -/
theorem run_of_ne {a : Screens} {t : Nat} (h : t ≠ a.active) {ops : List ConsoleOp}
    (hops : ∀ op ∈ ops, op ≠ .switchTo t) :
    (a.run ops).screen t = a.screen t := by
  induction ops generalizing a with
  | nil => rfl
  | cons op ops ih =>
      have hne : t ≠ (a.step op).active := by
        cases op with
        | output op => exact h
        | switchTo tty =>
            rintro rfl
            exact hops _ List.mem_cons_self rfl
      have htail : ∀ op' ∈ ops, op' ≠ .switchTo t := fun op' h' ↦ hops op' (List.mem_cons_of_mem _ h')
      exact (ih hne htail).trans (a.step_of_ne h op)

end Screens

/-! ## The simulation -/

namespace Console

/-- The screens of the terminals: the active one is shown, the others are saved. -/
def screens (c : Console) : Screens :=
  ⟨c.activeTty, fun t ↦ if t = c.activeTty then c.screen else c.saved t⟩

theorem screens_active (c : Console) : c.screens.screen c.activeTty = c.screen := if_pos rfl

theorem screens_of_ne (c : Console) {t : Nat} (h : t ≠ c.activeTty) :
    c.screens.screen t = c.saved t := if_neg h

/-- There is an active terminal, and every cursor is on its screen. -/
structure Valid (c : Console) : Prop where
  active_lt : c.activeTty < maxTty
  cursor : ∀ t, t < maxTty → (c.screens.screen t).CursorOk

theorem boot_valid (mem : VideoMem) : (boot mem).Valid where
  active_lt := Nat.zero_lt_succ _
  cursor t _ := by
    rcases eq_or_ne t 0 with rfl | hne
    · exact ⟨Int.le_refl 0, numCols_pos, Int.le_refl 0, Int.le_of_lt numRows_pos, fun _ ↦ rfl⟩
    · rw [screens_of_ne _ hne]
      exact ⟨Int.le_refl 0, numCols_pos, Int.le_refl 0, Int.le_of_lt numRows_pos, fun _ ↦ rfl⟩

/-- A cursor on the screen fits in two `char`s. -/
theorem toInt_ofInt_cursor {s : Screen} (h : s.CursorOk) :
    (Int8.ofInt s.screenX).toInt = s.screenX ∧ (Int8.ofInt s.screenY).toInt = s.screenY := by
  obtain ⟨hx₀, hx, hy₀, hy, _⟩ := h
  simp only [numCols, numRows] at hx hy
  exact ⟨Int8.toInt_ofInt_of_le (by omega) (by omega), Int8.toInt_ofInt_of_le (by omega) (by omega)⟩

/-- What `switch_screen` saves for the active terminal is what the screen shows. -/
theorem save_saved_active {c : Console} (h : c.screen.CursorOk) :
    (c.save.saved c.activeTty).Same c.screen := by
  obtain ⟨hx, hy⟩ := toInt_ofInt_cursor h
  simp only [saved, save, Function.update_self]
  exact ⟨memcpy_sameCells _ _, hx, hy⟩

theorem save_saved_of_ne (c : Console) {t : Nat} (h : t ≠ c.activeTty) :
    c.save.saved t = c.saved t := by
  simp only [saved, save, Function.update_of_ne h]

/-- The screen that `switch_screen` leaves is the one saved for the new terminal. -/
theorem restore_screen (c : Console) (t : Nat) : (c.restore t).screen.Same (c.saved t) := by
  have hmem := memcpy_sameCells c.screen.clear.mem (c.screenBuf t)
  rw [restore]
  generalize memcpy c.screen.clear.mem (c.screenBuf t) screenSize = m at hmem
  exact ⟨hmem, rfl, rfl⟩

namespace Valid

variable {c : Console}

theorem screen (h : c.Valid) : c.screen.CursorOk :=
  c.screens_active ▸ h.cursor c.activeTty h.active_lt

/-- After the screen is saved, what is saved is what every terminal shows. -/
theorem save_saved (h : c.Valid) (t : Nat) : (c.save.saved t).Same (c.screens.screen t) := by
  rcases eq_or_ne t c.activeTty with rfl | hne
  · rw [screens_active]
    exact save_saved_active h.screen
  · rw [save_saved_of_ne c hne, screens_of_ne c hne]

/-- **A switch changes the screen of no terminal.** -/
theorem switchTo (h : c.Valid) (tty t : Nat) :
    ((c.switchTo tty).screens.screen t).Same (c.screens.screen t) := by
  rcases eq_or_ne t tty with rfl | hne
  · have hshown : (c.switchTo t).screens.screen t = (c.save.restore t).screen := if_pos rfl
    rw [hshown]
    exact (c.save.restore_screen t).trans (h.save_saved t)
  · have hsaved : (c.switchTo tty).screens.screen t = c.save.saved t := if_neg hne
    rw [hsaved]
    exact h.save_saved t

/-- **An output changes the screen of the active terminal.** -/
theorem output (op : ScreenOp) (t : Nat) :
    (c.output op).screens.screen t = (c.screens.step (.output op)).screen t := by
  rcases eq_or_ne t c.activeTty with rfl | hne
  · have hactive : (c.output op).screens.screen c.activeTty = op.apply c.screen := if_pos rfl
    have hstep := c.screens.step_output_active op
    rw [hactive, ← c.screens_active]
    exact hstep.symm
  · have hother : (c.output op).screens.screen t = c.saved t := if_neg hne
    rw [hother, c.screens.step_of_ne hne, screens_of_ne c hne]

/-- One step on the console, and on screens that show the same. -/
theorem step_same (h : c.Valid) {a : Screens} (hs : c.screens.Same a) (op : ConsoleOp) :
    (c.step op).screens.Same (a.step op) := by
  cases op with
  | output op =>
      refine ⟨hs.active, fun t ht ↦ ?_⟩
      have hc : (c.step (.output op)).screens.screen t = _ := output op t
      rw [hc]
      rcases eq_or_ne t c.screens.active with rfl | hne
      · have hactive := a.step_output_active op
        rw [← hs.active] at hactive
        rw [c.screens.step_output_active op, hactive]
        exact (hs.screen _ ht).apply (h.cursor _ ht) op
      · rw [Screens.step_of_ne _ hne, Screens.step_of_ne _ fun heq ↦ hne (heq.trans hs.active.symm)]
        exact hs.screen t ht
  | switchTo tty => exact ⟨rfl, fun t ht ↦ (h.switchTo tty t).trans (hs.screen t ht)⟩

theorem step (h : c.Valid) {op : ConsoleOp} (hop : op.Ok) : (c.step op).Valid where
  active_lt := by
    cases op with
    | output op => exact h.active_lt
    | switchTo tty => exact hop
  cursor t ht := by
    have hsame := (h.step_same (Screens.Same.refl c.screens) op).screen t ht
    refine hsame.symm.cursorOk ?_
    cases op with
    | output op =>
        rcases eq_or_ne t c.screens.active with rfl | hne
        · rw [c.screens.step_output_active op]
          exact (h.cursor _ ht).apply op
        · rw [c.screens.step_of_ne hne]
          exact h.cursor t ht
    | switchTo tty => exact h.cursor t ht

/-- A whole run. -/
theorem run (h : c.Valid) {a : Screens} (hs : c.screens.Same a) {ops : List ConsoleOp}
    (hops : ∀ op ∈ ops, op.Ok) : (c.run ops).Valid ∧ (c.run ops).screens.Same (a.run ops) := by
  induction ops generalizing c a with
  | nil => exact ⟨h, hs⟩
  | cons op ops ih =>
      exact ih (h.step (hops op List.mem_cons_self)) (h.step_same hs op)
        fun op' h' ↦ hops op' (List.mem_cons_of_mem _ h')

/-- A terminal that is left and returned to shows what it showed. -/
theorem run_return (h : c.Valid) {t : Nat} (ht : t < maxTty) (hne : t ≠ c.activeTty)
    {ops : List ConsoleOp} (hops : ∀ op ∈ ops, op.Ok ∧ op ≠ .switchTo c.activeTty) :
    (c.run (.switchTo t :: ops ++ [.switchTo c.activeTty])).screen.Same c.screen := by
  have hok : ∀ op ∈ .switchTo t :: ops ++ [.switchTo c.activeTty], op.Ok := by
    intro op hmem
    rcases List.mem_append.mp hmem with hmem | hmem
    · rcases List.mem_cons.mp hmem with rfl | hmem
      · exact ht
      · exact (hops op hmem).1
    · rw [List.mem_singleton.mp hmem]
      exact h.active_lt
  obtain ⟨-, hsame⟩ := h.run (Screens.Same.refl c.screens) hok
  have hback := hsame.screen _ h.active_lt
  have hleft : (c.screens.run (.switchTo t :: ops ++ [.switchTo c.activeTty])).screen c.activeTty =
      c.screen := by
    rw [Screens.run, List.foldl_append]
    have hkept := Screens.run_of_ne (a := { c.screens with active := t }) hne.symm
      fun op hmem ↦ (hops op hmem).2
    exact hkept.trans c.screens_active
  have hshown : (c.run (.switchTo t :: ops ++ [.switchTo c.activeTty])).activeTty = c.activeTty := by
    rw [Console.run, List.foldl_append]
    rfl
  rw [hleft] at hback
  rw [← screens_active, hshown]
  exact hback

end Valid

/-- The console shows the active one of the terminals' screens and holds the others in its
buffers. -/
structure Shows (c : Console) (a : Screens) : Prop where
  active : c.activeTty = a.active
  shown : c.screen.Same (a.screen a.active)
  saved : ∀ t, t < maxTty → t ≠ a.active → (c.saved t).Same (a.screen t)

theorem Valid.shows {c : Console} (h : c.Valid) {a : Screens} (hs : c.screens.Same a) :
    c.Shows a where
  active := hs.active
  shown := by
    have hscreen := hs.screen _ h.active_lt
    rwa [screens_active, show c.activeTty = a.active from hs.active] at hscreen
  saved t ht hne := by
    rw [← c.screens_of_ne fun heq ↦ hne (heq.trans hs.active)]
    exact hs.screen t ht

/-- **One screen simulates three.**  After any outputs and switches the console shows the
active terminal's screen and has saved the others', where each output was applied to the
screen of the terminal then active; and a terminal that is left and returned to shows what it
showed. -/
theorem simulates (c : Console) (h : c.Valid) (ops : List ConsoleOp) (hops : ∀ op ∈ ops, op.Ok) :
    (c.run ops).Shows (c.screens.run ops) ∧
      ∀ t rest, t < maxTty → t ≠ (c.run ops).activeTty →
        (∀ op ∈ rest, op.Ok ∧ op ≠ .switchTo (c.run ops).activeTty) →
        ((c.run ops).run (.switchTo t :: rest ++ [.switchTo (c.run ops).activeTty])).screen.Same
          (c.run ops).screen := by
  obtain ⟨hvalid, hsame⟩ := h.run (Screens.Same.refl c.screens) hops
  exact ⟨hvalid.shows hsame, fun t rest ht hne hrest ↦ hvalid.run_return ht hne hrest⟩

/-- From boot, with a character on the first terminal, a switch and a backspace there; the
second terminal is left for the third, where the screen is cleared, and returned to. -/
theorem boot_simulates :
    ((boot fun _ ↦ 0).run [.output (.putc 0x61), .switchTo 1, .output .bksp]).Shows
        ((boot fun _ ↦ 0).screens.run [.output (.putc 0x61), .switchTo 1, .output .bksp]) ∧
      (((boot fun _ ↦ 0).run [.output (.putc 0x61), .switchTo 1, .output .bksp]).run
        [.switchTo 2, .output .clear, .switchTo 1]).screen.Same
        ((boot fun _ ↦ 0).run [.output (.putc 0x61), .switchTo 1, .output .bksp]).screen := by
  obtain ⟨hshows, hreturn⟩ := simulates (boot fun _ ↦ 0) (boot_valid _)
    [.output (.putc 0x61), .switchTo 1, .output .bksp] (by decide)
  exact ⟨hshows, hreturn 2 [.output .clear] (by decide) (by decide) (by decide)⟩

end Console

end Illinix
