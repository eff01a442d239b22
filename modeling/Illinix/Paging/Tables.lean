import Illinix.Base.Word
import Mathlib.Logic.Function.Basic

/-!
# The page directory and the page table

The kernel has one page directory and one page table (`paging.c`).  The table is
shared: directory slot 0 points to it from boot on, slot 31 from the first
`create_page` on.  Slot 1 is the 4 MB page of the kernel and slot 32 the 4 MB page
of the running program.

Entries are 32-bit words, read as natural numbers below `2 ^ 32`.  The address of
`page_table` is chosen by the linker; all that the source fixes about it is its
alignment, so it enters as `PageTableAddr`.

`translate` is the translation the processor performs with `CR4.PSE` set, as
`paging_enable` leaves it: a directory entry with bit 7 maps a 4 MB page, any
other present entry points to a table of 4 KB pages, and an access from user mode
needs the user bit at every level it goes through.
-/

namespace Illinix

/-! ## Constants of `paging.h` -/

def tableSize : Nat := 1024
def fourKb : Nat := 4096
def eightKb : Nat := 8192
def presentPage : Nat := 0x1
def fourMeg : Nat := 0x400000
def eightMeg : Nat := 0x800000
def video : Nat := 0xB8000
def kernelLoc : Nat := 0x400000
def kernelBottom : Nat := 0x800000
def enableKernel : Nat := 0x80
def enableUser : Nat := 0x7
def userProgramPdirLoc : Nat := 32
def vidMapLoc : Nat := 33

/-! ## The tables -/

/-- The address of `page_table`, which is declared `aligned(FOUR_KB)`. -/
structure PageTableAddr where
  addr : Nat
  aligned : 2 ^ 12 ∣ addr
  lt : addr < 2 ^ 32

/-- The arrays `page_dir` and `page_table`. -/
structure Paging where
  pageDir : Nat → Nat
  pageTable : Nat → Nat

namespace Paging

def setDir (pg : Paging) (i entry : Nat) : Paging :=
  { pg with pageDir := Function.update pg.pageDir i entry }

def setTable (pg : Paging) (i entry : Nat) : Paging :=
  { pg with pageTable := Function.update pg.pageTable i entry }

@[simp] theorem setDir_pageDir (pg : Paging) (i entry : Nat) :
    (pg.setDir i entry).pageDir = Function.update pg.pageDir i entry := rfl
@[simp] theorem setDir_pageTable (pg : Paging) (i entry : Nat) :
    (pg.setDir i entry).pageTable = pg.pageTable := rfl
@[simp] theorem setTable_pageDir (pg : Paging) (i entry : Nat) :
    (pg.setTable i entry).pageDir = pg.pageDir := rfl
@[simp] theorem setTable_pageTable (pg : Paging) (i entry : Nat) :
    (pg.setTable i entry).pageTable = Function.update pg.pageTable i entry := rfl

end Paging

variable (pt : PageTableAddr)

/-- `paging_init`, on whatever the two arrays held before. -/
def pagingInit (pg : Paging) : Paging :=
  let cleared : Paging :=
    { pageDir := fun i ↦ if i < tableSize then 0 else pg.pageDir i
      pageTable := fun i ↦ if i < tableSize then 0 else pg.pageTable i }
  ((cleared.setTable (video / fourKb) (video ||| presentPage)).setDir 0
    (pt.addr ||| presentPage)).setDir 1 (kernelLoc ||| enableKernel ||| presentPage)

/-- `create_page`: the 4 MB page of process `currProcess` becomes the user page. -/
def createPage (currProcess : Nat) (pg : Paging) : Paging :=
  let location := (kernelBottom + currProcess * fourMeg) % 2 ^ 32
  (pg.setDir userProgramPdirLoc
    (location ||| enableKernel ||| enableUser ||| presentPage)).setDir 31
    (pt.addr ||| presentPage ||| enableUser)

/-- `set_vidmap`, without its result. -/
def setVidmap (pg : Paging) : Paging :=
  (pg.setDir 0 (pt.addr ||| enableUser ||| presentPage)).setTable vidMapLoc
    (video ||| enableUser ||| presentPage)

/-- The address that `set_vidmap` returns. -/
def vidmapAddr : Nat := vidMapLoc <<< 12

/-! ## Translation -/

/-- The privilege level of an access. -/
inductive Mode
  | supervisor
  | user
deriving DecidableEq, Repr

/-- An entry lets an access through: present, and open to user mode if the access
comes from there. -/
def allows (m : Mode) (entry : Nat) : Bool :=
  entry.testBit 0 && (m == .supervisor || entry.testBit 2)

/-- The entry `i` of the table at physical address `base`.  Only `page_table` is
known; `ram` is what a table anywhere else would hold. -/
def tableEntry (ram : Nat → Nat → Nat) (pg : Paging) (base i : Nat) : Nat :=
  if base = pt.addr then pg.pageTable i else ram base i

/-- Two-level translation of the virtual address `v`. -/
def translate (ram : Nat → Nat → Nat) (m : Mode) (pg : Paging) (v : Nat) : Option Nat :=
  let pde := pg.pageDir (v / 2 ^ 22)
  if !allows m pde then none
  else if pde.testBit 7 then some ((pde &&& (2 ^ 32 - 2 ^ 22)) + v % 2 ^ 22)
  else
    let pte := tableEntry pt ram pg (pde &&& (2 ^ 32 - 2 ^ 12)) (v / 2 ^ 12 % 2 ^ 10)
    if !allows m pte then none
    else some ((pte &&& (2 ^ 32 - 2 ^ 12)) + v % 2 ^ 12)

/-! ## Reading an entry -/

theorem allows_lor {base f : Nat} (m : Mode) (h : 2 ^ 12 ∣ base) :
    allows m (base ||| f) = allows m f := by
  rw [allows, allows, Base.testBit_lor_aligned h (by decide),
    Base.testBit_lor_aligned h (by decide)]

theorem pageSize_lor {base f : Nat} (h : 2 ^ 12 ∣ base) :
    (base ||| f).testBit 7 = f.testBit 7 := Base.testBit_lor_aligned h (by decide)

@[simp] theorem allows_absent (m : Mode) : allows m 0 = false := by cases m <;> rfl

/-- An entry with the present bit alone is the kernel's. -/
@[simp] theorem allows_present (m : Mode) : allows m 0x1 = (m == .supervisor) := by
  cases m <;> rfl

@[simp] theorem allows_user (m : Mode) : allows m 0x7 = true := by cases m <;> rfl

variable {pt}

/-- Translation through an entry that maps a 4 MB page. -/
theorem translate_large {ram : Nat → Nat → Nat} {m : Mode} {pg : Paging} {v base f : Nat}
    (he : pg.pageDir (v / 2 ^ 22) = base ||| f) (hb : 2 ^ 22 ∣ base) (hlt : base < 2 ^ 32)
    (hf : f < 2 ^ 12) (hps : f.testBit 7 = true) :
    translate pt ram m pg v = if allows m f then some (base + v % 2 ^ 22) else none := by
  have hb' : 2 ^ 12 ∣ base := (Nat.pow_dvd_pow 2 (by decide)).trans hb
  have hmask := Base.land_highMask_lor hb (hf.trans (by decide)) (by decide) hlt
  rw [translate, he, allows_lor m hb', pageSize_lor hb', hmask, hps]
  cases allows m f <;> rfl

/-- Translation through an entry that points to `page_table`. -/
theorem translate_table {ram : Nat → Nat → Nat} {m : Mode} {pg : Paging} {v f : Nat}
    (he : pg.pageDir (v / 2 ^ 22) = pt.addr ||| f) (hf : f < 2 ^ 12)
    (hps : f.testBit 7 = false) :
    translate pt ram m pg v =
      if allows m f && allows m (pg.pageTable (v / 2 ^ 12 % 2 ^ 10)) then
        some ((pg.pageTable (v / 2 ^ 12 % 2 ^ 10) &&& (2 ^ 32 - 2 ^ 12)) + v % 2 ^ 12)
      else none := by
  have hmask := Base.land_highMask_lor pt.aligned hf (by decide) pt.lt
  rw [translate, he, allows_lor m pt.aligned, pageSize_lor pt.aligned, hmask, hps, tableEntry,
    if_pos rfl]
  generalize pg.pageTable (v / 2 ^ 12 % 2 ^ 10) = pte
  cases allows m f <;> cases hp : allows m pte <;> simp [hp]

/-- Nothing is mapped below an absent directory entry. -/
theorem translate_absent {ram : Nat → Nat → Nat} {m : Mode} {pg : Paging} {v : Nat}
    (he : pg.pageDir (v / 2 ^ 22) = 0) : translate pt ram m pg v = none := by
  rw [translate, he]
  cases m <;> rfl

end Illinix
