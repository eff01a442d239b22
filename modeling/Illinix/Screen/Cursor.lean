import Illinix.Screen.Switch

/-!
# The cursor that the display shows

The display has a cursor of its own, in two registers of its controller.  `update_cursor` sets them
from `screen_x` and `screen_y`, and every output and `switch_screen` ends with it, but for the NUL
that `putc` ignores.

`cursor_follows` says that this is enough: after any outputs and switches the display's cursor is
where the active terminal has its own.
-/

namespace Illinix

/-- The controller's registers, behind `VGA_DATA`, and the one that `VGA_CMD` selects. -/
structure Crtc where
  index : BitVec 8
  reg : BitVec 8 → BitVec 8

namespace Crtc

/-- A write to `VGA_CMD`. -/
def select (v : Crtc) (value : BitVec 8) : Crtc := { v with index := value }

/-- A write to `VGA_DATA`. -/
def write (v : Crtc) (value : BitVec 8) : Crtc :=
  { v with reg := Function.update v.reg v.index value }

def cursorHi : BitVec 8 := 0x0E
def cursorLo : BitVec 8 := 0x0F

/-- `update_cursor`. -/
def updateCursor (v : Crtc) (s : Screen) : Crtc :=
  let pos := BitVec.ofInt 16 (s.screenY * numCols + s.screenX)
  ((((v.select cursorHi).write ((pos >>> 8 &&& 0xFF).setWidth 8)).select cursorLo).write
    ((pos &&& 0xFF).setWidth 8))

/-- The cell that the display's cursor is on. -/
def cursor (v : Crtc) : Nat := 256 * (v.reg cursorHi).toNat + (v.reg cursorLo).toNat

theorem updateCursor_reg (s : Screen) (v : Crtc) :
    (v.updateCursor s).reg = Function.update (Function.update v.reg cursorHi
      ((BitVec.ofInt 16 (s.screenY * numCols + s.screenX) >>> 8 &&& 0xFF).setWidth 8)) cursorLo
      ((BitVec.ofInt 16 (s.screenY * numCols + s.screenX) &&& 0xFF).setWidth 8) := rfl

theorem updateCursor_of_ne (s : Screen) (v : Crtc) {r : BitVec 8} (hhi : r ≠ cursorHi)
    (hlo : r ≠ cursorLo) : (v.updateCursor s).reg r = v.reg r := by
  rw [updateCursor_reg, Function.update_of_ne hlo, Function.update_of_ne hhi]

/-- The two bytes of a position. -/
theorem bytes_pos (pos : BitVec 16) :
    256 * ((pos >>> 8 &&& 0xFF).setWidth 8).toNat + ((pos &&& 0xFF).setWidth 8).toNat =
      pos.toNat := by
  have hmask (x : BitVec 16) : ((x &&& 0xFF).setWidth 8).toNat = x.toNat % 256 := by
    have hand : x.toNat &&& (2 ^ 8 - 1) = x.toNat % 2 ^ 8 := Nat.and_two_pow_sub_one_eq_mod _ 8
    rw [BitVec.toNat_setWidth, BitVec.toNat_and]
    exact (Nat.mod_eq_of_lt (hand ▸ Nat.mod_lt _ (by decide))).trans hand
  have hlt := pos.isLt
  rw [hmask, hmask, BitVec.toNat_ushiftRight, Nat.shiftRight_eq_div_pow]
  omega

/-- A cursor on the screen has a cell of the display. -/
theorem cursor_updateCursor {s : Screen} (h : s.CursorOk) (v : Crtc) :
    ((v.updateCursor s).cursor : Int) = s.screenY * numCols + s.screenX := by
  obtain ⟨hx₀, hx, hy₀, hy, -⟩ := h
  simp only [numCols, numRows] at hx hy
  have hne : cursorHi ≠ cursorLo := by decide
  rw [cursor, updateCursor_reg, Function.update_self, Function.update_of_ne hne,
    Function.update_self, bytes_pos, BitVec.toNat_ofInt, numCols]
  omega

end Crtc

/-- The console, and the display's cursor. -/
structure Display where
  console : Console
  crtc : Crtc

namespace Display

/-- An output, or `switch_to_tty` up to the new `active_tty`, with the calls of `update_cursor`:
`switch_screen` clears the screen on the way. -/
def step (d : Display) : ConsoleOp → Display
  | .output op =>
      let c := d.console.output op
      ⟨c, if op = .putc 0 then d.crtc else d.crtc.updateCursor c.screen⟩
  | .switchTo tty =>
      let c := d.console.switchTo tty
      ⟨c, (d.crtc.updateCursor d.console.screen.clear).updateCursor c.screen⟩

def run (d : Display) (ops : List ConsoleOp) : Display := ops.foldl step d

/-- The display's cursor is the console's. -/
def Follows (d : Display) : Prop :=
  (d.crtc.cursor : Int) = d.console.screen.screenY * numCols + d.console.screen.screenX

variable {d : Display} {op : ConsoleOp} {ops : List ConsoleOp}

theorem console_step (d : Display) (op : ConsoleOp) : (d.step op).console = d.console.step op := by
  cases op <;> rfl

theorem console_run (d : Display) (ops : List ConsoleOp) :
    (d.run ops).console = d.console.run ops := by
  induction ops generalizing d with
  | nil => rfl
  | cons op ops ih => exact (ih (d.step op)).trans (by rw [console_step]; rfl)

/-- The NUL changes nothing. -/
theorem step_nul (d : Display) : d.step (.output (.putc 0)) = d := rfl

/-- **Every other step sets the display's cursor.** -/
theorem follows_step (h : d.console.Valid) (hop : op.Ok) (hne : op ≠ .output (.putc 0)) :
    (d.step op).Follows := by
  have hcursor := (h.step hop).screen
  cases op with
  | output op =>
      have hop' : op ≠ .putc 0 := fun heq ↦ hne (congrArg ConsoleOp.output heq)
      rw [Follows, step]
      dsimp only
      rw [if_neg hop']
      exact Crtc.cursor_updateCursor hcursor _
  | switchTo tty => exact Crtc.cursor_updateCursor hcursor _

theorem Follows.step (hf : d.Follows) (h : d.console.Valid) (hop : op.Ok) :
    (d.step op).Follows := by
  by_cases hne : op = .output (.putc 0)
  · rw [hne, step_nul]
    exact hf
  · exact follows_step h hop hne

theorem Follows.run (hf : d.Follows) (h : d.console.Valid) (hops : ∀ op ∈ ops, op.Ok) :
    (d.run ops).Follows := by
  induction ops generalizing d with
  | nil => exact hf
  | cons op ops ih =>
      have hop := hops op List.mem_cons_self
      refine ih (hf.step h hop) ?_ fun op' hmem ↦ hops op' (List.mem_cons_of_mem _ hmem)
      rw [console_step]
      exact h.step hop

theorem follows_run (h : d.console.Valid) (hops : ∀ op ∈ ops, op.Ok)
    (hdrawn : ∃ op ∈ ops, op ≠ .output (.putc 0)) : (d.run ops).Follows := by
  induction ops generalizing d with
  | nil => exact absurd hdrawn (by simp)
  | cons op ops ih =>
      have hop := hops op List.mem_cons_self
      have hops' : ∀ op' ∈ ops, op'.Ok := fun op' hmem ↦ hops op' (List.mem_cons_of_mem _ hmem)
      have hvalid : (d.step op).console.Valid := console_step d op ▸ h.step hop
      by_cases hne : op = .output (.putc 0)
      · obtain ⟨op', hmem, hne'⟩ := hdrawn
        refine ih hvalid hops' ⟨op', (List.mem_cons.mp hmem).resolve_left fun heq ↦ ?_, hne'⟩
        exact hne' (heq.trans hne)
      · exact (follows_step h hop hne).run hvalid hops'

/-- No other register of the controller is written. -/
theorem reg_run (d : Display) (ops : List ConsoleOp) {r : BitVec 8} (hhi : r ≠ Crtc.cursorHi)
    (hlo : r ≠ Crtc.cursorLo) : (d.run ops).crtc.reg r = d.crtc.reg r := by
  induction ops generalizing d with
  | nil => rfl
  | cons op ops ih =>
      refine (ih (d.step op)).trans ?_
      cases op with
      | output op =>
          rw [step]
          dsimp only
          split
          · rfl
          · exact Crtc.updateCursor_of_ne _ _ hhi hlo
      | switchTo tty =>
          exact (Crtc.updateCursor_of_ne _ _ hhi hlo).trans (Crtc.updateCursor_of_ne _ _ hhi hlo)

/-- **The display's cursor follows.**  After any outputs and switches of which one is not a NUL, the
row and the column that the controller shows are those of the active terminal's own cursor, and its
other registers are as they were. -/
theorem cursor_follows (d : Display) (h : d.console.Valid) (ops : List ConsoleOp)
    (hops : ∀ op ∈ ops, op.Ok) (hdrawn : ∃ op ∈ ops, op ≠ .output (.putc 0)) :
    ((d.run ops).crtc.cursor / 80 : Nat) =
        ((d.console.screens.run ops).screen (d.console.screens.run ops).active).screenY ∧
      ((d.run ops).crtc.cursor % 80 : Nat) =
        ((d.console.screens.run ops).screen (d.console.screens.run ops).active).screenX ∧
      ∀ r, r ≠ Crtc.cursorHi → r ≠ Crtc.cursorLo → (d.run ops).crtc.reg r = d.crtc.reg r := by
  have hfollows := follows_run h hops hdrawn
  obtain ⟨hvalid, hsame⟩ := h.run (Screens.Same.refl d.console.screens) hops
  have hshown := hvalid.shows hsame
  obtain ⟨hx₀, hx, hy₀, hy, -⟩ := hvalid.screen
  rw [Follows, console_run] at hfollows
  rw [← hshown.shown.x, ← hshown.shown.y]
  simp only [numCols, numRows] at *
  exact ⟨by omega, by omega, fun r ↦ reg_run d ops⟩

/-- Two letters on one terminal, one on another, and back. -/
theorem cursor_follows_back :
    ((run ⟨Console.boot fun _ ↦ 0, ⟨0, fun _ ↦ 0⟩⟩ [.output (.putc 0x61), .output (.putc 0x62),
      .switchTo 1, .output (.putc 0x63), .switchTo 0]).crtc.cursor % 80 : Nat) = (2 : Int) := by
  obtain ⟨-, hx, -⟩ := cursor_follows ⟨Console.boot fun _ ↦ 0, ⟨0, fun _ ↦ 0⟩⟩
    (Console.boot_valid _) [.output (.putc 0x61), .output (.putc 0x62), .switchTo 1,
      .output (.putc 0x63), .switchTo 0] (by decide) ⟨_, List.mem_cons_self, by decide⟩
  exact hx.trans (by decide)

end Display

end Illinix
