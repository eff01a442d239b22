import Illinix.Process.Args
import Illinix.Process.Step

/-!
# `execute`, assignment by assignment

`execute` looks for a free process number before it parses and checks the command, and looks again
once it knows that it will go on; from the second search on it changes the kernel's variables one
after the other.  `executeInOrder` makes these changes in the order of the source, on the kernel as
the ones before left it.  `executeInOrder_eq` says that all of them together are the one change that
`execute` stands for in the rest of the development, and `execute_atomic` that a call which fails has
made none of them.
-/

namespace Illinix

/-- How `execute` ends. -/
inductive ExecEnd
  | /-- It returns to its caller. -/
    returned (ret : Int)
  | /-- It goes to user mode, in process `pid` at `eip`. -/
    entered (pid eip : Nat)
  | /-- It page-faults while it loads the program. -/
    faulted
deriving DecidableEq, Repr

/-- The first search: the index of a process number that is not in use, or `i + fuel`. -/
def freeLoop (processes : Nat → Nat) : Nat → Nat → Nat
  | 0, i => i
  | fuel + 1, i => if processes i = 0 then i else freeLoop processes fuel (i + 1)

namespace Kernel

/-- The second search, which takes the number it finds. -/
def takeLoop : Nat → Nat → Kernel → Kernel
  | 0, _, k => k
  | fuel + 1, i, k =>
      if k.processes i = 0 then
        { k with processes := Function.update k.processes i 1, currProcess := i }
      else takeLoop fuel (i + 1) k

/-- From `create_pcb` to the copy of `args`: the local `curr_pcb`, and `tty_top_pid`. -/
def fillPcb (k : Kernel) (f : Frame) (l : Locals) (args : List UInt8) : Pcb × Kernel :=
  let currPcb := { l.pcb with fdArray := FdArray.create l.pcb.fdArray }
  let currPcb := { currPcb with parent := getPcb f.esp }
  let currPcb := { currPcb with processNum := k.currProcess }
  let currPcb := { currPcb with tty := k.activeTty }
  let k := { k with ttyTopPid := Function.update k.ttyTopPid k.activeTty k.currProcess }
  ({ currPcb with args := Bytes.ofList args }, k)

/-- The test for a root: it is its own parent, and the flag is cleared. -/
def testRoot (currPcb : Pcb) (k : Kernel) : Pcb × Kernel :=
  if k.currProcess = 0 ∨ k.nextOneIsRootShell = true then
    ({ currPcb with parent := pcbAddr k.currProcess }, { k with nextOneIsRootShell := false })
  else (currPcb, k)

/-- The stack and frame pointers are stored in the parent, `curr_pcb` is copied to its place, and
the TSS is set. -/
def placePcb (currPcb : Pcb) (k : Kernel) (f : Frame) : Kernel :=
  let currPcb := { currPcb with parentEsp0 := k.esp0 }
  let currPcb := { currPcb with parentSs0 := k.ss0 }
  let k := k.saveFrame currPcb.parent f
  let k := { k with pcbs := Function.update k.pcbs (pcbAddr k.currProcess) currPcb }
  let k := { k with ss0 := kernelDs }
  let k := { k with esp0 := stackTop k.currProcess }
  { k with current := pcbAddr k.currProcess }

/-- The assignments of `execute` from `create_pcb` on. -/
def finish (k : Kernel) (f : Frame) (l : Locals) (args : List UInt8) : Kernel :=
  let filled := k.fillPcb f l args
  let tested := testRoot filled.1 filled.2
  placePcb tested.1 tested.2 f

end Kernel

/-- `execute`, with the kernel as it leaves it. -/
def executeInOrder (M : Machine) (k : Kernel) (f : Frame) (l : Locals) (command : Bytes) :
    Option (ExecEnd × Kernel) :=
  let (program, args) := parseArgs command
  if program.length ≥ fileNameSize then none
  else if freeLoop k.processes maxNumProcesses 0 = maxNumProcesses then some (.returned (-1), k)
  else
    match checkValidity M.img (Bytes.ofList program) l.exeCheck with
    | none => some (.returned (-1), k)
    | some dentry =>
        let k := k.takeLoop maxNumProcesses 0
        let k := { k with paging := createPage M.pt k.currProcess k.paging }
        match loadFile M.img dentry with
        | none => some (.faulted, { k with mem := l.mem })
        | some bytes =>
            let a := userBase k.paging + (virtualAddr - userProgLoc)
            let k := { k with mem := storeBytes k.mem a bytes }
            let k := k.finish f l args
            some (.entered k.currProcess (entryPoint M.img dentry.inodeNum l.fileHeader), k)

/-! ## The two searches -/

section Searches

variable {k : Kernel}

/-- Both searches find the same number. -/
theorem freeLoop_takeLoop (fuel i : Nat) :
    (freeLoop k.processes fuel i = i + fuel ∧ ∀ j, i ≤ j → j < i + fuel → k.processes j ≠ 0) ∨
      ∃ q, i ≤ q ∧ q < i + fuel ∧ freeLoop k.processes fuel i = q ∧ k.processes q = 0 ∧
        (∀ j, i ≤ j → j < q → k.processes j ≠ 0) ∧ k.takeLoop fuel i =
          { k with processes := Function.update k.processes q 1, currProcess := q } := by
  induction fuel generalizing i with
  | zero => exact Or.inl ⟨rfl, fun j hle hlt ↦ absurd hlt (Nat.not_lt.mpr hle)⟩
  | succ fuel ih =>
      by_cases hfree : k.processes i = 0
      · refine Or.inr ⟨i, Nat.le_refl i, by omega, ?_, hfree,
          fun j hle hlt ↦ absurd hlt (Nat.not_lt.mpr hle), ?_⟩
        · rw [freeLoop, if_pos hfree]
        · rw [Kernel.takeLoop, if_pos hfree]
      · have hfirst : ∀ {j}, i ≤ j → (i + 1 ≤ j → k.processes j ≠ 0) → k.processes j ≠ 0 := by
          intro j hle hrest
          rcases Nat.eq_or_lt_of_le hle with rfl | hlt
          · exact hfree
          · exact hrest hlt
        rw [freeLoop, if_neg hfree, Kernel.takeLoop, if_neg hfree]
        rcases ih (i + 1) with ⟨heq, hall⟩ | ⟨q, hle, hlt, heq, hq, hlow, htake⟩
        · refine Or.inl ⟨by omega, fun j hle hlt ↦ hfirst hle fun hgt ↦ hall j hgt (by omega)⟩
        · exact Or.inr ⟨q, by omega, by omega, heq, hq,
            fun j hle hlt ↦ hfirst hle fun hgt ↦ hlow j hgt hlt, htake⟩

/-- The first search finds none, or both find the least free number. -/
theorem searches_eq (k : Kernel) :
    (k.freeSlot = none ∧ freeLoop k.processes maxNumProcesses 0 = maxNumProcesses) ∨
      ∃ q, k.freeSlot = some q ∧ freeLoop k.processes maxNumProcesses 0 ≠ maxNumProcesses ∧
        k.takeLoop maxNumProcesses 0 =
          { k with processes := Function.update k.processes q 1, currProcess := q } := by
  rcases freeLoop_takeLoop (k := k) maxNumProcesses 0 with
    ⟨heq, hall⟩ | ⟨q, -, hlt, heq, hq, hlow, htake⟩
  · refine Or.inl ⟨Kernel.freeSlot_eq_none.mpr fun i hi ↦ ?_, by rw [heq, Nat.zero_add]⟩
    exact hall i (Nat.zero_le i) (by rwa [Nat.zero_add])
  · rw [Nat.zero_add] at hlt
    refine Or.inr ⟨q, Kernel.freeSlot_eq_some.mpr ⟨hlt, hq, fun j hj ↦ hlow j (Nat.zero_le j) hj⟩,
      ?_, htake⟩
    rw [heq]
    exact hlt.ne

end Searches

/-! ## One change -/

/-- The result of `execute`, with the kernel as it leaves it. -/
def ExecResult.inOrder (k : Kernel) : ExecResult → ExecEnd × Kernel
  | .error => (.returned (-1), k)
  | .entered pid eip k' => (.entered pid eip, k')
  | .fault k' => (.faulted, k')

/-- The kernel when the program is loaded. -/
def Kernel.loaded (M : Machine) (k : Kernel) (q : Nat) (bytes : List UInt8) : Kernel :=
  { k.claim M q with
    mem := storeBytes k.mem (userBase (k.claim M q).paging + (virtualAddr - userProgLoc)) bytes }

/-- The assignments after the load are the ones of `launch`. -/
theorem finish_eq_launch (M : Machine) (k : Kernel) (q : Nat) (f : Frame) (l : Locals)
    (args bytes : List UInt8) :
    (k.loaded M q bytes).finish f l args = k.launch M q f l args bytes := by
  by_cases hroot : k.IsRoot q
  · have htest : ∀ pcb top, Kernel.testRoot pcb { k.loaded M q bytes with ttyTopPid := top } =
        ({ pcb with parent := pcbAddr q },
          { k.loaded M q bytes with ttyTopPid := top, nextOneIsRootShell := false }) :=
      fun _ _ ↦ if_pos hroot
    simp only [Kernel.launch, Kernel.newPcb, Kernel.newParent, if_pos hroot]
    rw [Kernel.finish, Kernel.fillPcb, htest]
    rfl
  · have htest : ∀ pcb top, Kernel.testRoot pcb { k.loaded M q bytes with ttyTopPid := top } =
        (pcb, { k.loaded M q bytes with ttyTopPid := top }) := fun _ _ ↦ if_neg hroot
    simp only [Kernel.launch, Kernel.newPcb, Kernel.newParent, if_neg hroot]
    rw [Kernel.finish, Kernel.fillPcb, htest]
    rfl

/-- **The assignments together are one change.** -/
theorem executeInOrder_eq (M : Machine) (k : Kernel) (f : Frame) (l : Locals) (command : Bytes) :
    executeInOrder M k f l command = (execute M k f l command).map (ExecResult.inOrder k) := by
  simp only [executeInOrder, execute]
  split
  · rfl
  · rcases searches_eq k with ⟨hnone, hloop⟩ | ⟨q, hsome, hloop, htake⟩
    · rw [if_pos hloop, hnone]
      rfl
    · rw [if_neg hloop, hsome, htake]
      cases checkValidity M.img (Bytes.ofList (parseArgs command).1) l.exeCheck with
      | none => rfl
      | some dentry =>
          dsimp only
          cases loadFile M.img dentry with
          | none => rfl
          | some bytes =>
              show some (ExecEnd.entered
                ((k.loaded M q bytes).finish f l (parseArgs command).2).currProcess _,
                (k.loaded M q bytes).finish f l (parseArgs command).2) = _
              rw [finish_eq_launch]
              rfl

/-- **A failing `execute` changes nothing.**  In every state of the kernel, for every command whose
first word fits: if `execute` returns `-1`, the kernel is as before; and if it does not, exactly one
process number has become live, the least one that was free. -/
theorem execute_atomic (M : Machine) (k : Kernel) (f : Frame) (l : Locals) (command : Bytes)
    (hword : (commandWord command).length < fileNameSize) :
    ∃ e k', executeInOrder M k f l command = some (e, k') ∧
      (e = .returned (-1) → k' = k) ∧
      (e ≠ .returned (-1) → ∃ q, q < maxNumProcesses ∧ k.processes q = 0 ∧
        (∀ j, j < q → k.processes j ≠ 0) ∧ k'.processes q ≠ 0 ∧
        ∀ j, j ≠ q → k'.processes j = k.processes j) := by
  have hlive : ∀ {q : Nat} {k' : Kernel}, k.freeSlot = some q → k'.processes = Function.update k.processes q 1 →
      ∃ q, q < maxNumProcesses ∧ k.processes q = 0 ∧ (∀ j, j < q → k.processes j ≠ 0) ∧
        k'.processes q ≠ 0 ∧ ∀ j, j ≠ q → k'.processes j = k.processes j := by
    intro q k' hq hupdate
    obtain ⟨hlt, hfree, hlow⟩ := Kernel.freeSlot_eq_some.mp hq
    refine ⟨q, hlt, hfree, hlow, ?_, fun j hj ↦ ?_⟩
    · rw [hupdate, Function.update_self]
      exact Nat.one_ne_zero
    · rw [hupdate, Function.update_of_ne hj]
  rw [executeInOrder_eq]
  rcases execute_cases (M := M) (k := k) (f := f) (l := l) (by rwa [firstWord_eq]) with
    herror | ⟨q, eip, args, bytes, hq, -, hentered⟩ | ⟨q, hq, hfault⟩
  · exact ⟨_, _, by rw [herror]; rfl, fun _ ↦ rfl, fun h ↦ absurd rfl h⟩
  · exact ⟨_, _, by rw [hentered]; rfl, fun h ↦ (by cases h), fun _ ↦ hlive hq rfl⟩
  · exact ⟨_, _, by rw [hfault]; rfl, fun h ↦ (by cases h), fun _ ↦ hlive hq rfl⟩

/-- There is no file `x`, and the first shell gets process number 0. -/
theorem execute_atomic_boot :
    executeInOrder tinyMachine (bootKernel tinyMachine tinyBoot) tinyBoot.frame tinyLocals
        (Bytes.ofList [0x78]) = some (.returned (-1), bootKernel tinyMachine tinyBoot) ∧
      ∃ eip k', executeInOrder tinyMachine (bootKernel tinyMachine tinyBoot) tinyBoot.frame tinyLocals
        shellName = some (.entered 0 eip, k') ∧ k'.processes 0 ≠ 0 := by
  constructor
  · obtain ⟨e, k', hexec, hfail, -⟩ := execute_atomic tinyMachine (bootKernel tinyMachine tinyBoot)
      tinyBoot.frame tinyLocals (Bytes.ofList [0x78]) (by decide)
    have hend : (executeInOrder tinyMachine (bootKernel tinyMachine tinyBoot) tinyBoot.frame
        tinyLocals (Bytes.ofList [0x78])).map Prod.fst = some (.returned (-1)) := by decide
    rw [hexec, Option.map_some, Option.some.injEq] at hend
    rw [hexec, hfail hend, show e = .returned (-1) from hend]
  · obtain ⟨e, k', hexec, -, hlive⟩ := execute_atomic tinyMachine (bootKernel tinyMachine tinyBoot)
      tinyBoot.frame tinyLocals shellName (by decide)
    have hend : (executeInOrder tinyMachine (bootKernel tinyMachine tinyBoot) tinyBoot.frame
        tinyLocals shellName).map Prod.fst = some (.entered 0 0x08048000) := by decide
    rw [hexec, Option.map_some, Option.some.injEq] at hend
    obtain rfl : e = .entered 0 0x08048000 := hend
    obtain ⟨q, -, -, hlow, hq, -⟩ := hlive (by decide)
    have hzero : q = 0 := by
      by_contra hne
      exact hlow 0 (Nat.pos_of_ne_zero hne) rfl
    rw [hzero] at hq
    exact ⟨_, k', hexec, hq⟩

end Illinix
