import Illinix.Files.Listing
import Illinix.Files.Stream
import Illinix.Process.GetArgs
import Illinix.Terminal.Buffer

/-!
# The system calls, as a program sees them

`World` puts together the parts of the kernel that the calls of one program work on: the image,
the `args` and descriptors of its PCB, and the driver of the terminal it runs on.  It also has the
keys that are pressed at each wait for Enter, and it records what was put on the screen and which
commands were passed to `execute`.  The terminal is not switched away while the program runs.

A call that the kernel would make through a null table has no result, and so has no program that
makes one.  The programs themselves are functions on `World`; the loops they contain are run for a
number of rounds (`Base.rounds`).
-/

namespace Illinix

open Base

/-- The part of the machine that the calls of a program work on. -/
structure World where
  img : Image
  args : Bytes
  tbl : FdArray
  tty : Tty
  /-- The keys that are pressed at each wait for Enter, before it. -/
  typed : Nat → List UInt8
  /-- The number of waits so far. -/
  waits : Nat
  screen : List ScreenOp
  /-- The commands that were passed to `execute`. -/
  ran : List (List UInt8)

namespace World

/-! ## The calls -/

/-- A key on the terminal: the keyboard handler calls `terminal_write(0, &character, 1)`. -/
def press (w : World) (c : UInt8) : World :=
  let wr := Tty.terminalWrite 0 [c] w.tty
  { w with tty := wr.tty, screen := w.screen ++ wr.output }

/-- The wait for `enter_status`. -/
def waitEnter (w : World) : World :=
  if w.tty.enterStatus then w
  else { ((w.typed w.waits).foldl press w).press 0x0a with waits := w.waits + 1 }

/-- `terminal_read`. -/
def terminalRead (w : World) (nbytes : Int) : ReadResult × World :=
  let w' := w.waitEnter
  let r := Tty.terminalRead w.tty.activeTty nbytes w'.tty
  (r.1, { w' with tty := r.2 })

/-- The driver that a call on descriptor `fd` comes to. -/
def driver (tbl : FdArray) (fd : Int) : Option FileOps :=
  if OutOfRange fd ∨ (tbl fd.toNat).flags = 0 then none else (tbl fd.toNat).fileOperations

/-- `read`. -/
def read (w : World) (fd nbytes : Int) : ReadResult × World :=
  let t := if driver w.tbl fd = some .terminalInput then w.terminalRead nbytes else (.fail, w)
  let r := FdArray.read w.img t.1 w.tbl fd nbytes
  (r.1, { t.2 with tbl := r.2 })

/-- `write`, of the `nbytes` bytes from `buf` on. -/
def write (w : World) (fd : Int) (buf : Bytes) (nbytes : Int) : Option (Int × World) :=
  let wr := Tty.terminalWrite fd ((List.range nbytes.toNat).map buf) w.tty
  let w' := if driver w.tbl fd = some .terminalOutput then
      { w with tty := wr.tty, screen := w.screen ++ wr.output }
    else w
  (FdArray.write wr.ret w.tbl fd nbytes).map fun ret ↦ (ret, w')

/-- `open`. -/
def openFd (w : World) (filename : Bytes) : Int × World :=
  let r := FdArray.openFd w.img w.tbl filename
  (r.1, { w with tbl := r.2 })

/-- `ece391_fdputs`. -/
def fdputs (w : World) (fd : Int) (s : Bytes) : Option World :=
  (w.write fd s (strlen s)).map Prod.snd

/-- A buffer after a call has stored bytes from its start on. -/
def fill (buf : Bytes) (bytes : List UInt8) : Bytes := applyLog buf (logAt 0 bytes)

/-- The characters of a message. -/
def chars (s : String) : List UInt8 := s.toList.map fun c ↦ UInt8.ofNat c.toNat

/-- A message of a program. -/
def message (s : String) : Bytes := Bytes.ofList (chars s)

/-! ## The screen -/

/-- Bytes written to the screen. -/
def print (w : World) (l : List UInt8) : World :=
  { w with screen := w.screen ++ l.map .putc }

def setTbl (w : World) (tbl : FdArray) : World := { w with tbl := tbl }

@[simp] theorem print_tbl (w : World) (l : List UInt8) : (w.print l).tbl = w.tbl := rfl

@[simp] theorem setTbl_tbl (w : World) (tbl : FdArray) : (w.setTbl tbl).tbl = tbl := rfl

@[simp] theorem setTbl_img (w : World) (tbl : FdArray) : (w.setTbl tbl).img = w.img := rfl

@[simp] theorem print_img (w : World) (l : List UInt8) : (w.print l).img = w.img := rfl

@[simp] theorem setTbl_setTbl (w : World) (tbl tbl' : FdArray) :
    (w.setTbl tbl).setTbl tbl' = w.setTbl tbl' := rfl

theorem setTbl_print (w : World) (tbl : FdArray) (l : List UInt8) :
    (w.setTbl tbl).print l = (w.print l).setTbl tbl := rfl

@[simp] theorem print_nil (w : World) : w.print [] = w := by
  rw [print, List.map_nil, List.append_nil]

@[simp] theorem print_print (w : World) (l l' : List UInt8) :
    (w.print l).print l' = w.print (l ++ l') := by
  rw [print, print, print, List.map_append, List.append_assoc]

end World

/-- On descriptor 1 every byte goes to the screen, and nothing to the line. -/
theorem Tty.terminalWrite_one (buf : List UInt8) (s : Tty) :
    Tty.terminalWrite 1 buf s = ⟨s, buf.length, buf.map .putc⟩ := by
  suffices hloop : ∀ (nbytes : Int) (l : List UInt8),
      Tty.writeLoop 1 nbytes l s = ⟨s, nbytes, l.map .putc⟩ from hloop _ buf
  intro nbytes l
  induction l with
  | nil => rfl
  | cons c l ih =>
      simp only [Tty.writeLoop, ne_eq, not_true, and_false, if_false, ih, List.map_cons]

namespace World

/-- Descriptor 1 is as `create_pcb` left it. -/
structure Console (tbl : FdArray) : Prop where
  flags : (tbl 1).flags = 1
  ops : (tbl 1).fileOperations = some .terminalOutput

theorem console_create (junk : FdArray) : Console (FdArray.create junk) := ⟨rfl, rfl⟩

theorem Console.of_eq {tbl tbl' : FdArray} (h : Console tbl) (heq : tbl' 1 = tbl 1) :
    Console tbl' := ⟨by rw [heq, h.flags], by rw [heq, h.ops]⟩

theorem Console.driver {tbl : FdArray} (h : Console tbl) :
    driver tbl 1 = some .terminalOutput := by
  rw [World.driver, if_neg, ← h.ops]
  · rfl
  · rw [not_or]
    refine ⟨by decide, ?_⟩
    rw [show (tbl (Int.toNat 1)).flags = 1 from h.flags]
    decide

/-- **A write to descriptor 1** puts its bytes on the screen. -/
theorem write_one {w : World} (h : Console w.tbl) (buf : Bytes) (nbytes : Int) :
    w.write 1 buf nbytes = some (nbytes, w.print ((List.range nbytes.toNat).map buf)) := by
  have hwrite : ∀ dev, FdArray.write dev w.tbl 1 nbytes = some nbytes := by
    intro dev
    have hflags : (w.tbl (Int.toNat 1)).flags = 1 := h.flags
    have hslot : (w.tbl (Int.toNat 1)).fileOperations = some .terminalOutput := h.ops
    rw [FdArray.write, if_neg (by decide), if_pos hflags, hslot]
    rfl
  rw [write, Tty.terminalWrite_one, if_pos h.driver, hwrite]
  rfl

theorem fdputs_one {w : World} (h : Console w.tbl) {s : Bytes} {l : List UInt8} (hs : s.Holds l)
    (hl : l.length < 2 ^ 32) : w.fdputs 1 s = some (w.print l) := by
  have hbytes : (List.range l.length).map s = l := by
    refine List.ext_getElem (by rw [List.length_map, List.length_range]) fun i hi hi' ↦ ?_
    rw [List.getElem_map, List.getElem_range, hs.2 i hi'.le, List.getD_eq_getElem _ _ hi']
  rw [fdputs, hs.strlen_eq hl, write_one h, Option.map_some, Int.toNat_natCast, hbytes]

theorem holds_message {s : String} (h : 0 ∉ chars s) : (message s).Holds (chars s) :=
  Bytes.holds_ofList (List.forall_mem_ne'.mpr h)

theorem fdputs_message {w : World} (h : Console w.tbl) (s : String)
    (hne : 0 ∉ chars s) (hl : (chars s).length < 2 ^ 32) :
    w.fdputs 1 (message s) = some (w.print (chars s)) :=
  fdputs_one h (holds_message hne) hl

/-! ## Buffers -/

theorem fill_apply (buf : Bytes) (bytes : List UInt8) (i : Nat) :
    fill buf bytes i = bytes.getD i (buf i) := applyLog_logAt_zero buf bytes i

/-- The bytes that a call has stored. -/
theorem map_fill (buf : Bytes) {bytes : List UInt8} {n : Nat} (h : n ≤ bytes.length) :
    (List.range n).map (fill buf bytes) = bytes.take n := by
  refine List.ext_getElem (by simpa using h) fun i hi hi' ↦ ?_
  have hin : i < n := by simpa using hi
  rw [List.getElem_map, List.getElem_range, fill_apply, List.getElem_take,
    List.getD_eq_getElem _ _ (hin.trans_le h)]

/-! ## Reading what is not the terminal -/

/-- A read that does not come to the terminal. -/
theorem read_eq {w : World} {fd nbytes : Int} (h : driver w.tbl fd ≠ some .terminalInput) :
    w.read fd nbytes =
      ((FdArray.read w.img .fail w.tbl fd nbytes).1,
        w.setTbl (FdArray.read w.img .fail w.tbl fd nbytes).2) := by
  rw [read, if_neg h]
  rfl

end World

end Illinix
