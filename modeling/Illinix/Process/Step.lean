import Illinix.Process.Exec

/-!
# The kernel as a state machine

One step is one entry into the kernel that can move the processor to another process:
the system calls `execute`, `halt` and `vidmap`, a tick of the PIT (`switch_process`) and
a terminal switch from the keyboard (`switch_to_tty`).  `step` returns what the processor
does next, an `Outcome`, and the new state; it is `none` where the kernel never gets out
(the search loop of `get_next_process` with no opened terminal) or where the model ends
(a command whose first word overflows `program`, a fault inside the fault handler).

The event of a step carries what the state does not determine: the registers at the
entry, and the uninitialised locals.  A page fault in the kernel runs
`page_fault_exception`, which is a `halt` of the running process.
-/

namespace Illinix

/-- What the processor does after a step. -/
inductive Outcome
  | /-- The running process goes on; a system call returns the value. -/
    stays (ret : Option Int)
  | /-- A new program starts, in process `pid` at `eip`. -/
    enters (pid eip : Nat)
  | /-- `ESP` and `EBP` are loaded; where a pending `execute` is resumed, it returns the
    value. -/
    resumes (f : Frame) (ret : Option Int)
deriving DecidableEq, Repr

/-- How a process ends. -/
inductive Ending
  | syscall
  | exception
deriving DecidableEq, Repr

/-- The entries into the kernel. -/
inductive Call
  | execute (command : Bytes)
  | halt (ending : Ending) (ebx : Int)
  | /-- A PIT tick; the byte after `tty_top_pid`. -/
    tick (beyond : Nat)
  | switchToTty (tty : Nat)
  | vidmap (screenStart : Nat)

/-- An entry, with the registers and the locals it finds. -/
structure Event where
  call : Call
  frame : Frame
  locals : Locals
  /-- The locals of an `execute` in a `halt` that a fault causes. -/
  inner : Locals

/-- The command `"shell"` of the kernel itself: `parse_args` reads past its end. -/
def Machine.shellCommand (M : Machine) : Bytes := fun i ↦
  if i < 5 then shellName i else if i = 5 then 0 else M.rodata (i - 6)

theorem Machine.firstWord_shellCommand (M : Machine) :
    Bytes.ofList (firstWord M.shellCommand) = shellName ∧
      (firstWord M.shellCommand).length < fileNameSize := by
  have hword : firstWord M.shellCommand = [0x73, 0x68, 0x65, 0x6c, 0x6c] := rfl
  rw [hword]
  exact ⟨rfl, by decide⟩

/-- The image holds a valid executable `shell`. -/
def Machine.HasShell (M : Machine) : Prop := ∃ dentry, M.img.HasExecutable shellName dentry

namespace Kernel

/-! ## `halt` -/

/-- The loop of `halt` over the descriptors: `close` takes its argument from `EBX`, which
the loop does not change. -/
def closeFiles (k : Kernel) (cur : Nat) (ebx : Int) : Kernel :=
  { k with
    pcbs := Function.update k.pcbs cur
      { k.pcbs cur with
        fdArray := (fun tbl ↦ (FdArray.close tbl ebx).2)^[fdArraySize] (k.pcbs cur).fdArray } }

theorem closeFiles_sameLinks (k : Kernel) (cur : Nat) (ebx : Int) (a : Nat) :
    Pcb.SameLinks (k.pcbs a) ((k.closeFiles cur ebx).pcbs a) :=
  (Pcb.SameLinks.setFdArray (k.pcbs cur) _).update a

theorem closeFiles_frame (k : Kernel) (cur : Nat) (ebx : Int) (a : Nat) :
    ((k.closeFiles cur ebx).pcbs a).frame = (k.pcbs a).frame := by
  by_cases ha : a = cur
  · subst ha
    simp only [closeFiles, Function.update_self]
    rfl
  · simp only [closeFiles, Function.update_of_ne ha]

/-- A root that halts gives its number back and asks for a new shell. -/
def retire (k : Kernel) (cur : Nat) : Kernel :=
  { k with
    processes := Function.update k.processes (k.pcbs cur).processNum 0
    nextOneIsRootShell := true }

theorem retire_processes {k : Kernel} {cur r : Nat} (hr : (k.pcbs cur).processNum = r) :
    (k.retire cur).processes = Function.update k.processes r 0 := by
  rw [← hr]
  rfl

/-- The rest of `halt`: back to the parent. -/
def returnToParent (M : Machine) (k : Kernel) (cur : Nat) : Outcome × Kernel :=
  let parent := (k.pcbs cur).parent
  let num := (k.pcbs parent).processNum
  (.resumes (k.pcbs parent).frame (some 0),
    { k.resume M num parent with
      processes := Function.update (Function.update k.processes (k.pcbs cur).processNum 0) num 1
      ttyTopPid := Function.update k.ttyTopPid (k.pcbs cur).tty num
      currProcess := num })

/-- Process `r` gives way to `p`, the process that its parent's PCB belongs to. -/
theorem returnToParent_kernel (M : Machine) {k : Kernel} {cur r p : Nat}
    (hr : (k.pcbs cur).processNum = r) (hp : (k.pcbs (k.pcbs cur).parent).processNum = p) :
    (k.returnToParent M cur).2 =
      { k.resume M p (k.pcbs cur).parent with
        processes := Function.update (Function.update k.processes r 0) p 1
        ttyTopPid := Function.update k.ttyTopPid (k.pcbs cur).tty p
        currProcess := p } := by
  rw [← hr, ← hp]
  rfl

theorem returnToParent_processes (M : Machine) {k : Kernel} {cur r p : Nat}
    (hr : (k.pcbs cur).processNum = r) (hp : (k.pcbs (k.pcbs cur).parent).processNum = p) :
    (k.returnToParent M cur).2.processes =
      Function.update (Function.update k.processes r 0) p 1 := by
  rw [returnToParent_kernel M hr hp]

/-! ## `switch_process` -/

/-- The search loop of `get_next_process`.  It looks at no more than four places before it
comes back to one. -/
def nextTtyLoop (top : Nat → Nat) : Nat → Nat → Option Nat
  | 0, _ => none
  | fuel + 1, nextTty =>
      if top nextTty = ttyUnopened then nextTtyLoop top fuel ((nextTty + 1) % maxTty)
      else some nextTty

/-- `get_next_process`: what the loop found is not what it returns. -/
def getNextProcess (k : Kernel) (beyond currTty : Nat) : Option Nat :=
  let top i := if i < maxTty then k.ttyTopPid i else beyond
  (nextTtyLoop top (maxTty + 1) (currTty + 1)).map fun _ ↦ k.ttyTopPid currTty

/-- `switch_process`. -/
def switchProcess (M : Machine) (k : Kernel) (f : Frame) (beyond : Nat) :
    Option (Outcome × Kernel) :=
  let cur := getPcb f.esp
  let k' := k.saveFrame cur f
  match k'.getNextProcess beyond (k.pcbs cur).tty with
  | none => none
  | some next =>
      if next = 2 ^ 32 - 1 ∨ next = (k.pcbs cur).processNum then some (.stays none, k')
      else some (.resumes (k'.pcbs (pcbAddr next)).frame none, k'.resume M next (pcbAddr next))

end Kernel

/-- `halt`. -/
def halt (M : Machine) (k : Kernel) (f : Frame) (l : Locals) (ebx : Int) :
    Option (Outcome × Kernel) :=
  let cur := getPcb f.esp
  let closed := k.closeFiles cur ebx
  if (k.pcbs cur).parent = cur then
    let retired := closed.retire cur
    match execute M retired f l M.shellCommand with
    | some (.entered q eip k') => some (.enters q eip, k')
    | some .error => some (retired.returnToParent M cur)
    | _ => none
  else some (closed.returnToParent M cur)

/-- `switch_to_tty`. -/
def switchToTty (M : Machine) (k : Kernel) (f : Frame) (l inner : Locals) (tty : Nat) :
    Option (Outcome × Kernel) :=
  let k := { k with activeTty := tty }
  if k.ttyTopPid tty = ttyUnopened then
    let k := { k with nextOneIsRootShell := true }
    match execute M k f l M.shellCommand with
    | some .error => some (.stays none, k)
    | some (.entered q eip k') => some (.enters q eip, k')
    | some (.fault k') => halt M k' f inner l.ebx
    | none => none
  else
    let next := k.ttyTopPid tty
    some (.resumes (k.pcbs (pcbAddr next)).frame none, k.resume M next (pcbAddr next))

/-- The pointers that `vidmap` accepts. -/
def InUserRange (p : Nat) : Prop := p ≠ 0 ∧ userProgLoc ≤ p ∧ p ≤ userProgLoc + fourMeg

instance (p : Nat) : Decidable (InUserRange p) := inferInstanceAs (Decidable (_ ∧ _ ∧ _))

/-- A 32-bit word in memory. -/
def wordBytes (w : Nat) : List UInt8 :=
  [UInt8.ofNat w, UInt8.ofNat (w >>> 8), UInt8.ofNat (w >>> 16), UInt8.ofNat (w >>> 24)]

/-- `vidmap`.  The check lets the end of the user page through; the store then faults. -/
def vidmap (M : Machine) (k : Kernel) (f : Frame) (l : Locals) (screenStart : Nat) :
    Option (Outcome × Kernel) :=
  if ¬ InUserRange screenStart then some (.stays (some (-1)), k)
  else
    let k := { k with paging := setVidmap M.pt k.paging }
    if screenStart + bytesInInt ≤ userProgLoc + fourMeg then
      let a := userBase k.paging + (screenStart - userProgLoc)
      some (.stays (some 0), { k with mem := storeBytes k.mem a (wordBytes vidmapAddr) })
    else halt M k f l l.ebx

/-- One step of the kernel. -/
def step (M : Machine) (k : Kernel) (e : Event) : Option (Outcome × Kernel) :=
  match e.call with
  | .execute command =>
      match execute M k e.frame e.locals command with
      | some .error => some (.stays (some (-1)), k)
      | some (.entered q eip k') => some (.enters q eip, k')
      | some (.fault k') => halt M k' e.frame e.inner e.locals.ebx
      | none => none
  | .halt _ ebx => halt M k e.frame e.locals ebx
  | .tick beyond => k.switchProcess M e.frame beyond
  | .switchToTty tty => switchToTty M k e.frame e.locals e.inner tty
  | .vidmap screenStart => vidmap M k e.frame e.locals screenStart

/-- The state after a step. -/
def next (M : Machine) (k : Kernel) (e : Event) : Option Kernel := (step M k e).map Prod.snd

/-! ## Boot -/

/-- What memory holds before the kernel starts. -/
structure BootState where
  pcbs : Nat → Pcb
  paging : Paging
  mem : Nat → UInt8
  frame : Frame
  locals : Locals

/-- The state in which `entry` runs the first shell. -/
def bootKernel (M : Machine) (b : BootState) : Kernel where
  processes _ := 0
  currProcess := 0
  pcbs := b.pcbs
  activeTty := 0
  ttyTopPid _ := ttyUnopened
  nextOneIsRootShell := true
  esp0 := 0x800000
  ss0 := kernelDs
  paging := pagingInit M.pt b.paging
  mem := b.mem
  current := 0

/-- The state after `entry` has executed the first shell. -/
def boot (M : Machine) (b : BootState) : Option Kernel :=
  match execute M (bootKernel M b) b.frame b.locals M.shellCommand with
  | some (.entered _ _ k) => some k
  | _ => none

/-! ## A small machine -/

/-- A machine whose only file is the shell of `tinyImage`. -/
def tinyMachine : Machine where
  img := tinyImage
  pt := ⟨0x410000, ⟨0x410, rfl⟩, by decide⟩
  rodata _ := 0

/-- Memory that holds nothing but zeros. -/
def tinyLocals : Locals where
  exeCheck _ := 0
  fileHeader _ := 0
  pcb := ⟨fun _ ↦ ⟨none, 0, 0, 0, 0⟩, 0, 0, 0, 0, 0, 0, fun _ ↦ 0, 0⟩
  mem _ := 0
  ebx := 0

def tinyBoot : BootState where
  pcbs _ := tinyLocals.pcb
  paging := ⟨fun _ ↦ 0, fun _ ↦ 0⟩
  mem _ := 0
  frame := ⟨0x7fff00, 0x7fff40⟩
  locals := tinyLocals

/-- An entry into the kernel from process `pid`, 256 bytes down its stack. -/
def tinyEvent (pid : Nat) (call : Call) : Event :=
  ⟨call, ⟨stackTop pid - 0x100, stackTop pid - 0x80⟩, tinyLocals, tinyLocals⟩

/-- A program asks for a shell. -/
def tinyShell : Call := .execute shellName

theorem tinyMachine_hasShell : tinyMachine.HasShell :=
  ⟨⟨strncpy shellName fileNameSize, 2, 0⟩, by decide, rfl, by decide, by decide, by decide⟩

end Illinix
