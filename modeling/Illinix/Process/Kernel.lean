import Illinix.Files.Descriptor
import Illinix.Paging.Isolation

/-!
# The state of the kernel

What `execute`, `halt`, `switch_process` and `switch_to_tty` work on: the process
table, the PCBs, the terminals, the TSS and the page tables.

A PCB lies at the bottom of the 8 KB kernel stack of its process, so it is known by
its address, and the kernel finds the one of the running process by masking the stack
pointer (`getPcb`).  The PCBs are a table indexed by address.  The state also records
`current`, the address of the PCB that the last transfer of control created or loaded
`ESP` and `EBP` from; it is no variable of the source, and no routine reads it.

A routine that changes several variables in a row is written as one function on the
record; the order of the assignments only matters where one reads what another wrote.
-/

namespace Illinix

/-! ## Constants -/

def maxTty : Nat := 3
def ttyUnopened : Nat := 255
def kernelDs : Nat := 0x18
def bytesInInt : Nat := 4
def pcbMask : Nat := 0xFFFFE000
def userProgLoc : Nat := 0x08000000
def virtualAddr : Nat := 0x08048000

/-! ## Processes -/

/-- The stack and frame pointers. -/
structure Frame where
  esp : Nat
  ebp : Nat
deriving DecidableEq, Repr

/-- `pcb_t`, without two fields that nothing reads or writes. -/
structure Pcb where
  fdArray : FdArray
  parent : Nat
  processNum : Nat
  parentEsp0 : Nat
  parentSs0 : Nat
  ebp : Nat
  esp : Nat
  args : Bytes
  tty : Nat

namespace Pcb

/-- The saved stack and frame pointers. -/
def frame (pcb : Pcb) : Frame := ⟨pcb.esp, pcb.ebp⟩

def setFrame (pcb : Pcb) (f : Frame) : Pcb := { pcb with esp := f.esp, ebp := f.ebp }

@[simp] theorem setFrame_frame (pcb : Pcb) (f : Frame) : (pcb.setFrame f).frame = f := rfl

/-- Two PCBs agree on who the process is: its parent, its number and its terminal. -/
structure SameLinks (pcb pcb' : Pcb) : Prop where
  parent : pcb'.parent = pcb.parent
  processNum : pcb'.processNum = pcb.processNum
  tty : pcb'.tty = pcb.tty

namespace SameLinks

@[refl] theorem refl (pcb : Pcb) : SameLinks pcb pcb := ⟨rfl, rfl, rfl⟩

theorem setFrame (pcb : Pcb) (f : Frame) : SameLinks pcb (pcb.setFrame f) := ⟨rfl, rfl, rfl⟩

theorem setFdArray (pcb : Pcb) (tbl : FdArray) : SameLinks pcb { pcb with fdArray := tbl } :=
  ⟨rfl, rfl, rfl⟩

/-- Changing one PCB of a table without its links. -/
theorem update {pcbs : Nat → Pcb} {a : Nat} {pcb : Pcb} (h : SameLinks (pcbs a) pcb) (x : Nat) :
    SameLinks (pcbs x) (Function.update pcbs a pcb x) := by
  by_cases hx : x = a
  · subst hx
    rw [Function.update_self]
    exact h
  · rw [Function.update_of_ne hx]

end SameLinks

end Pcb

/-- The PCB of a process number, at the bottom of its kernel stack. -/
def pcbAddr (pid : Nat) : Nat := kernelBottom - (pid + 1) * eightKb

/-- The top of the kernel stack of a process number. -/
def stackTop (pid : Nat) : Nat := kernelBottom - pid * eightKb - bytesInInt

/-- `get_pcb`. -/
def getPcb (esp : Nat) : Nat := esp &&& pcbMask

theorem pcbAddr_inj {p q : Nat} (hp : p < maxNumProcesses) (hq : q < maxNumProcesses)
    (h : pcbAddr p = pcbAddr q) : p = q := by
  simp only [pcbAddr, kernelBottom, eightKb, maxNumProcesses] at *
  omega

/-- The mask takes every stack pointer inside a kernel stack to the PCB below it. -/
theorem getPcb_eq {pid esp : Nat} (hpid : pid < maxNumProcesses) (hlo : pcbAddr pid ≤ esp)
    (hhi : esp ≤ stackTop pid) : getPcb esp = pcbAddr pid := by
  simp only [pcbAddr, stackTop, kernelBottom, eightKb, bytesInInt, maxNumProcesses] at *
  have hmask : pcbMask = 2 ^ 32 - 2 ^ 13 := by decide
  rw [getPcb, hmask, Base.land_highMask (by omega) (by decide)]
  omega

/-! ## The kernel -/

/-- The variables of the kernel. -/
structure Kernel where
  processes : Nat → Nat
  currProcess : Nat
  pcbs : Nat → Pcb
  activeTty : Nat
  ttyTopPid : Nat → Nat
  nextOneIsRootShell : Bool
  esp0 : Nat
  ss0 : Nat
  paging : Paging
  mem : Nat → UInt8
  current : Nat

/-- What the build fixes: the file system, where the linker puts `page_table`, and the
bytes that follow the literal `"shell"` in the kernel. -/
structure Machine where
  img : Image
  pt : PageTableAddr
  rodata : Bytes

namespace Kernel

/-- The first process number that is not in use. -/
def freeSlot (k : Kernel) : Option Nat :=
  (List.range maxNumProcesses).find? fun i ↦ k.processes i == 0

theorem freeSlot_eq_some {k : Kernel} {q : Nat} :
    k.freeSlot = some q ↔
      q < maxNumProcesses ∧ k.processes q = 0 ∧ ∀ j, j < q → k.processes j ≠ 0 := by
  rw [freeSlot, List.find?_range_eq_some]
  simp only [beq_iff_eq, List.mem_range, Bool.not_eq_true', beq_eq_false_iff_ne]
  exact ⟨fun ⟨h₀, hlt, hlow⟩ ↦ ⟨hlt, h₀, hlow⟩, fun ⟨hlt, h₀, hlow⟩ ↦ ⟨h₀, hlt, hlow⟩⟩

theorem freeSlot_eq_none {k : Kernel} :
    k.freeSlot = none ↔ ∀ i, i < maxNumProcesses → k.processes i ≠ 0 := by
  rw [freeSlot, List.find?_eq_none]
  simp only [List.mem_range, beq_iff_eq]

theorem freeSlot_isSome {k : Kernel} {i : Nat} (hi : i < maxNumProcesses)
    (h : k.processes i = 0) : ∃ q, k.freeSlot = some q := by
  cases hf : k.freeSlot with
  | none => exact absurd h (freeSlot_eq_none.mp hf i hi)
  | some q => exact ⟨q, rfl⟩

/-- Storing `ESP` and `EBP` in a PCB. -/
def saveFrame (k : Kernel) (a : Nat) (f : Frame) : Kernel :=
  { k with pcbs := Function.update k.pcbs a ((k.pcbs a).setFrame f) }

/-- Resuming a process: its page, its kernel stack, and the PCB whose `ESP` and `EBP`
are loaded. -/
def resume (M : Machine) (k : Kernel) (pid pcb : Nat) : Kernel :=
  { k with
    paging := createPage M.pt pid k.paging
    ss0 := kernelDs
    esp0 := stackTop pid
    current := pcb }

section SaveFrame

variable (k : Kernel) (a : Nat) (f : Frame)

@[simp] theorem saveFrame_pcbs :
    (k.saveFrame a f).pcbs = Function.update k.pcbs a ((k.pcbs a).setFrame f) := rfl

end SaveFrame

section Resume

variable (M : Machine) (k : Kernel) (pid pcb : Nat)

@[simp] theorem resume_pcbs : (k.resume M pid pcb).pcbs = k.pcbs := rfl

end Resume

end Kernel

end Illinix
