import Illinix.Files.Allocator
import Illinix.Process.Forest
import Illinix.Process.GetArgs
import Illinix.Process.Vidmap

/-!
# What happens to a process while others run

`step` has the entries into the kernel that can leave a process.  Between two of them the
running process stores to its memory and makes the other system calls; `Act` puts all of
these together, so that a run of acts is everything the processor does on behalf of user
programs.

The processes share the page directory, the process table and the memory that the PCBs lie
in, and the kernel finds the PCB it works on by masking `ESP`.  `suspended_untouched` says
that this is enough for isolation in time: a process that does not run keeps its whole PCB
and every byte of its 4 MB, whatever the others do.  `args_kept` follows one field of the
PCB, the arguments, from the `execute` that parsed them to a `getargs` at any later time.

Both need programs that are careful with two calls.  `read` and `getargs` store through any
pointer they are given, with the rights of the kernel, so a program can overwrite the PCBs.
`Act.Valid` asks for buffers in the user page.
-/

namespace Illinix

open Base

/-- The `n` bytes from `buf` on lie in the user page. -/
def InUserPage (buf n : Nat) : Prop := userProgLoc ≤ buf ∧ buf + n ≤ userProgLoc + fourMeg

instance (buf n : Nat) : Decidable (InUserPage buf n) := inferInstanceAs (Decidable (_ ∧ _))

namespace Kernel

/-- Bytes that a system call stores through the pointer `buf` of the program.  What a pointer to
anywhere but the user page overwrites is not part of the model: `Act.Valid` leaves it out. -/
def copyOut (k : Kernel) (buf : Nat) (bytes : List UInt8) : Option Kernel :=
  if bytes = [] then some k
  else if InUserPage buf bytes.length then
    some { k with mem := storeBytes k.mem (userBase k.paging + (buf - userProgLoc)) bytes }
  else none

/-- What a call on descriptors stores: only `read` has a buffer to fill. -/
def fileBytes (img : Image) (tbl : FdArray) : FileCall → List UInt8
  | .read fd nbytes dev => (FdArray.read img dev tbl fd nbytes).1.stored
  | _ => []

/-- A new descriptor table for the PCB at `cur`. -/
def setFdArray (k : Kernel) (cur : Nat) (tbl : FdArray) : Kernel :=
  { k with pcbs := Function.update k.pcbs cur { k.pcbs cur with fdArray := tbl } }

/-- `open`, `close`, `read` and `write`, on the table of the PCB that `get_pcb` finds. -/
def fileCall (img : Image) (k : Kernel) (esp buf : Nat) (c : FileCall) : Option Kernel :=
  let cur := getPcb esp
  let tbl := (k.pcbs cur).fdArray
  match FdArray.call img tbl c with
  | none => none
  | some (_, tbl') => (k.setFdArray cur tbl').copyOut buf (fileBytes img tbl c)

/-- What `getargs` stores, from the PCB that `get_pcb` finds. -/
def getargsBytes (k : Kernel) (esp : Nat) (nbytes : Int) : List UInt8 :=
  let toread := if nbytes > argsArrSize then (argsArrSize : Int) else nbytes
  (getargsStores (k.pcbs (getPcb esp)).args toread.toNat 0).map Prod.snd

/-- `getargs`. -/
def getargsCall (k : Kernel) (esp buf : Nat) (nbytes : Int) : Option Kernel :=
  k.copyOut buf (k.getargsBytes esp nbytes)

end Kernel

/-- If the program of an `execute` is too long, the memory that its fault leaves behind is what the
stores of `load_file` before the fault make of it. -/
def Event.LoadsUpToFault (M : Machine) (ram : Nat → Nat → Nat) (k : Kernel) (e : Event) : Prop :=
  ∀ command dentry q, e.call = .execute command → k.freeSlot = some q →
    checkValidity M.img (Bytes.ofList (firstWord command)) e.locals.exeCheck = some dentry →
      ¬ M.img.FitsPage dentry.inodeNum →
        ∃ fileData run, loadFileRun (translate M.pt ram .supervisor (createPage M.pt q k.paging))
            M.img fileData dentry = some run ∧ e.locals.mem = applyLog k.mem run.physLog

/-- What the processor does for the running process. -/
inductive Act
  | /-- A store of one byte, in user mode. -/
    store (v : Nat) (byte : UInt8)
  | /-- An entry that can leave the process. -/
    enter (e : Event)
  | /-- A system call on descriptors. -/
    file (esp buf : Nat) (c : FileCall)
  | getargs (esp buf : Nat) (nbytes : Int)

namespace Act

/-- The state after an act.  A store through an address that is not mapped does not happen:
it is an entry into the kernel by a page fault. -/
def next (M : Machine) (ram : Nat → Nat → Nat) (k : Kernel) : Act → Option Kernel
  | .store v byte =>
      (translate M.pt ram .user k.paging v).map fun a ↦
        { k with mem := Function.update k.mem a byte }
  | .enter e => Illinix.next M k e
  | .file esp buf c => k.fileCall M.img esp buf c
  | .getargs esp buf nbytes => k.getargsCall esp buf nbytes

/-- The acts of the running process: the calls are made on its kernel stack, and a call that stores
is given a buffer in the user page. -/
def Valid (M : Machine) (ram : Nat → Nat → Nat) (k : Kernel) : Act → Prop
  | .store v _ => v < 2 ^ 32
  | .enter e => e.Valid k ∧ e.LoadsUpToFault M ram k
  | .file esp buf c => getPcb esp = k.current ∧
      let bytes := Kernel.fileBytes M.img (k.pcbs (getPcb esp)).fdArray c
      (bytes = [] ∨ InUserPage buf bytes.length)
  | .getargs esp buf nbytes => getPcb esp = k.current ∧
      let bytes := k.getargsBytes esp nbytes
      (bytes = [] ∨ InUserPage buf bytes.length)

/-- The act starts a program as process `q`. -/
def Enters (M : Machine) (k : Kernel) (q : Nat) : Act → Prop
  | .enter e => ∃ eip k', step M k e = some (.enters q eip, k')
  | _ => False

end Act

/-! ## The memory that a program is loaded to -/

section Load

variable {M : Machine} {k k' : Kernel} {f : Frame} {l : Locals} {command : Bytes} {q eip : Nat}

/-- What `load_file` copies never leaves the user page. -/
theorem loadLoop_length {img : Image} {inode length fuel readSofar : Nat} {bytes : List UInt8}
    (h : loadLoop img inode length fuel readSofar = some bytes) (hle : readSofar ≤ programRoom) :
    readSofar + bytes.length ≤ programRoom := by
  induction fuel generalizing readSofar bytes with
  | zero => cases h
  | succ fuel ih =>
      rw [loadLoop] at h
      split at h
      · cases h
        exact hle
      · split at h
        · cases h
        · rename_i piece _
          split at h
          · cases h
          · rename_i hroom
            obtain ⟨rest, hrest, rfl⟩ := Option.map_eq_some_iff.mp h
            have hlen := ih hrest (Nat.not_lt.mp hroom)
            rw [List.length_append]
            omega

/-- An `execute` that goes to user mode has launched the program it loaded. -/
theorem execute_entered (h : execute M k f l command = some (.entered q eip k')) :
    k.freeSlot = some q ∧ ∃ bytes, bytes.length ≤ programRoom ∧
      k' = k.launch M q f l (parseArgs command).2 bytes := by
  rw [execute] at h
  dsimp only at h
  split at h
  · cases h
  · split at h
    · cases h
    · rename_i q' hq
      split at h
      · cases h
      · split at h
        · cases h
        · rename_i bytes hload
          cases h
          have hlen := loadLoop_length hload (Nat.zero_le _)
          exact ⟨hq, bytes, by omega, rfl⟩

/-- An `execute` that faults has claimed the page of a process number, and stored to that page. -/
theorem execute_fault {ram : Nat → Nat → Nat} {e : Event} {vid : Bool} {last : Option Nat}
    (hlayout : Layout M.pt last vid k.paging) (hc : e.call = .execute command)
    (hload : e.LoadsUpToFault M ram k)
    (h : execute M k e.frame e.locals command = some (.fault k')) :
    ∃ q bytes, k.freeSlot = some q ∧ bytes.length ≤ programRoom ∧
      k' = k.faulted M q (storeBytes k.mem (userFrame q + (virtualAddr - userProgLoc)) bytes) := by
  rw [execute] at h
  dsimp only at h
  split at h
  · cases h
  · split at h
    · cases h
    · rename_i q hq
      split at h
      · cases h
      · rename_i dentry hvalid
        split at h
        · rename_i hnone
          cases h
          have hqlt := (Kernel.freeSlot_eq_some.mp hq).1
          have hclaimed := hlayout.createPage hqlt
          obtain ⟨fileData, run, hrun, hmem⟩ := hload command dentry q hc hq hvalid
            (loadFile_eq_none_iff.mp hnone)
          obtain ⟨run', bytes, hrun', -, hlen, hstores⟩ :=
            loadFileRun_of_loadFile_none hclaimed hqlt hnone
          cases hrun.symm.trans hrun'
          refine ⟨q, bytes, hq, hlen, ?_⟩
          rw [hmem, hstores, hclaimed.userBase_eq hqlt]
        · cases h

end Load

/-! ## What a process keeps -/

/-- The process `p` is as it was: in the table, with its PCB and its memory. -/
structure Spares (k k' : Kernel) (p : Nat) : Prop where
  live : k.processes p = 1 → k'.processes p = 1
  pcb : k'.pcbs (pcbAddr p) = k.pcbs (pcbAddr p)
  mem : ∀ a, InUserFrame p a → k'.mem a = k.mem a

theorem userBase_createPage {pt : PageTableAddr} {pg : Paging} {q : Nat}
    (hq : q < maxNumProcesses) : userBase (createPage pt q pg) = userFrame q := by
  rw [userBase, userProgramPdirLoc, createPage_dir_user hq]
  exact Base.land_highMask_lor (userFrame_aligned q) (by decide) (by decide) (userFrame_lt hq)

/-- Stores into the user page of `q`, seen from the frame of another process. -/
theorem storeBytes_other {mem : Nat → UInt8} {p q x off a : Nat} {bytes : List UInt8}
    (hx : x = userFrame q + off) (hpq : p ≠ q) (hfit : off + bytes.length ≤ fourMeg)
    (ha : InUserFrame p a) : storeBytes mem x bytes a = mem a := by
  rw [storeBytes, if_neg]
  rintro ⟨hlo, hhi⟩
  exact hpq (ha.unique ⟨by omega, by omega⟩)

namespace Spares

variable {M : Machine} {k k' k'' : Kernel} {p q : Nat}

theorem refl (k : Kernel) (p : Nat) : Spares k k p := ⟨id, rfl, fun _ _ ↦ rfl⟩

theorem trans (h : Spares k k' p) (h' : Spares k' k'' p) : Spares k k'' p :=
  ⟨h'.live ∘ h.live, h'.pcb.trans h.pcb, fun a ha ↦ (h'.mem a ha).trans (h.mem a ha)⟩

theorem closed (hp : k.current ≠ pcbAddr p) (ebx : Int) : Spares k (k.closed ebx) p :=
  ⟨id, Function.update_of_ne hp.symm _ _, fun _ _ ↦ rfl⟩

theorem retired (hp : k.current ≠ pcbAddr p) (hnum : (k.pcbs k.current).processNum ≠ p)
    (ebx : Int) : Spares k (k.retired ebx) p := by
  have hclosed := closed hp ebx
  have hsame : ((k.closed ebx).pcbs k.current).processNum = (k.pcbs k.current).processNum :=
    (k.closeFiles_sameLinks k.current ebx k.current).processNum
  refine ⟨fun h ↦ ?_, hclosed.pcb, hclosed.mem⟩
  rw [Kernel.retired, Kernel.retire_processes hsame, Function.update_of_ne hnum.symm]
  exact h

theorem returnToParent {cur : Nat} (hnum : (k.pcbs cur).processNum ≠ p) :
    Spares k (k.returnToParent M cur).2 p := by
  refine ⟨fun h ↦ ?_, rfl, fun _ _ ↦ rfl⟩
  rw [Kernel.returnToParent_processes M rfl rfl]
  by_cases hpar : p = (k.pcbs (k.pcbs cur).parent).processNum
  · rw [hpar, Function.update_self]
  · rw [Function.update_of_ne hpar, Function.update_of_ne hnum.symm]
    exact h

/-- A new program, loaded over a process number that is not `p`. -/
theorem launch {f : Frame} (hq : q < maxNumProcesses) (hp : p < maxNumProcesses) (hpq : p ≠ q)
    (hf : getPcb f.esp ≠ pcbAddr p) (l : Locals) (args : List UInt8) {bytes : List UInt8}
    (hlen : bytes.length ≤ programRoom) : Spares k (k.launch M q f l args bytes) p := by
  have hne : pcbAddr p ≠ pcbAddr q := fun h ↦ hpq (pcbAddr_inj hp hq h)
  have hparent : pcbAddr p ≠ k.newParent q f := by
    by_cases hroot : k.IsRoot q
    · rwa [Kernel.newParent_of_isRoot hroot]
    · rw [Kernel.newParent_of_not_isRoot hroot]
      exact hf.symm
  refine ⟨fun h ↦ ?_, ?_, fun a ha ↦ ?_⟩
  · rw [Kernel.launch_processes, Function.update_of_ne hpq]
    exact h
  · rw [Kernel.launch_pcbs, Function.update_of_ne hne, Function.update_of_ne hparent]
  · have hbase : userBase ((k.claim M q).saveFrame (k.newParent q f) f).paging = userFrame q :=
      userBase_createPage hq
    have hfit : virtualAddr - userProgLoc + bytes.length ≤ fourMeg := by
      simp only [programRoom, virtualAddr, userProgLoc, fourMeg] at hlen ⊢
      omega
    exact storeBytes_other (by rw [hbase]) hpq hfit ha

/-- Stores to the page of `q`, from where programs are loaded on. -/
theorem faulted (hpq : p ≠ q) {bytes : List UInt8} (hlen : bytes.length ≤ programRoom) :
    Spares k (k.faulted M q (storeBytes k.mem (userFrame q + (virtualAddr - userProgLoc)) bytes))
      p := by
  refine ⟨fun h ↦ ?_, rfl, fun a ha ↦ ?_⟩
  · exact (Function.update_of_ne hpq 1 k.processes).trans h
  · refine storeBytes_other rfl hpq ?_ ha
    simp only [programRoom, virtualAddr, userProgLoc, fourMeg] at hlen ⊢
    omega

/-- An `execute` that starts a program. -/
theorem execute {f : Frame} {l : Locals} {command : Bytes} {eip : Nat}
    (hex : Illinix.execute M k f l command = some (.entered q eip k')) (hp : p < maxNumProcesses)
    (hlive : k.processes p = 1) (hf : getPcb f.esp ≠ pcbAddr p) : Spares k k' p := by
  obtain ⟨hq, bytes, hlen, rfl⟩ := execute_entered hex
  obtain ⟨hlt, hzero, -⟩ := Kernel.freeSlot_eq_some.mp hq
  refine launch hlt hp ?_ hf l _ hlen
  rintro rfl
  rw [hlive] at hzero
  cases hzero

/-- Whatever ends, it is not `p`. -/
theorem halt {f : Frame} {l : Locals} {ebx : Int} {o : Outcome}
    (hhalt : Illinix.halt M k f l ebx = some (o, k')) (hf : getPcb f.esp = k.current)
    (hcur : k.current ≠ pcbAddr p) (hnum : (k.pcbs k.current).processNum ≠ p)
    (hp : p < maxNumProcesses) (hlive : k.processes p = 1) : Spares k k' p := by
  have hclosed := closed hcur ebx
  have hretired := retired hcur hnum ebx
  have hsame : ((k.closed ebx).pcbs k.current).processNum ≠ p := by
    rwa [(k.closeFiles_sameLinks k.current ebx k.current).processNum]
  simp only [Illinix.halt, hf] at hhalt
  split at hhalt
  · split at hhalt
    · rename_i q eip k₁ hex
      cases hhalt
      exact hretired.trans (execute hex hp (hretired.live hlive) (hf.trans_ne hcur))
    · cases hhalt
      exact hretired.trans (returnToParent hsame)
    · cases hhalt
  · cases hhalt
    exact hclosed.trans (returnToParent hsame)

/-- A step of the running process, seen from another one. -/
theorem step (hM : M.HasShell) {ram : Nat → Nat → Nat} {e : Event} {o : Outcome} {vid : Bool}
    {r : Nat} (he : e.Valid k) (hload : e.LoadsUpToFault M ram k) (hd : Designates M k vid r)
    (hpr : p ≠ r) (hp : p < maxNumProcesses) (hlive : k.processes p = 1)
    (hstep : Illinix.step M k e = some (o, k')) : Spares k k' p := by
  have hf := he.onStack
  have hcur : k.current ≠ pcbAddr p := fun h ↦
    hpr (pcbAddr_inj hp hd.lt (h.symm.trans hd.current))
  have hne : getPcb e.frame.esp ≠ pcbAddr p := hf.trans_ne hcur
  have hnum : (k.pcbs k.current).processNum ≠ p := hd.num.trans_ne hpr.symm
  cases hcall : e.call with
  | execute command =>
      simp only [Illinix.step, hcall] at hstep
      split at hstep
      · cases hstep
        exact refl k p
      · rename_i q eip k₁ hex
        cases hstep
        exact execute hex hp hlive hne
      · rename_i k₁ hex
        obtain ⟨q, bytes, hq, hlen, rfl⟩ := execute_fault hd.layout hcall hload hex
        obtain ⟨-, hzero, -⟩ := Kernel.freeSlot_eq_some.mp hq
        have hpq : p ≠ q := by
          rintro rfl
          rw [hlive] at hzero
          cases hzero
        have hspared : Spares k _ p := faulted (M := M) hpq hlen
        exact hspared.trans (halt hstep hf hcur hnum hp (hspared.live hlive))
      · cases hstep
  | halt ending ebx =>
      simp only [Illinix.step, hcall] at hstep
      exact halt hstep hf hcur hnum hp hlive
  | tick beyond =>
      have hsaved : Spares k (k.saveFrame k.current e.frame) p :=
        ⟨id, Function.update_of_ne hcur.symm _ _, fun _ _ ↦ rfl⟩
      simp only [Illinix.step, hcall, Kernel.switchProcess, hf] at hstep
      split at hstep
      · cases hstep
      · split at hstep
        · cases hstep
          exact hsaved
        · cases hstep
          exact hsaved.trans ⟨id, rfl, fun _ _ ↦ rfl⟩
  | switchToTty tty =>
      have hwants : Spares k (k.wantsShell tty) p := ⟨id, rfl, fun _ _ ↦ rfl⟩
      simp only [Illinix.step, hcall, switchToTty] at hstep
      split at hstep
      · rcases execute_shell hM (k.wantsShell tty) e.frame e.locals with
          ⟨_, hex⟩ | ⟨q, eip, args, bytes, _, hex⟩
        · rw [hex] at hstep
          cases hstep
          exact hwants
        · rw [hex] at hstep
          cases hstep
          exact hwants.trans (execute hex hp hlive hne)
      · cases hstep
        exact ⟨id, rfl, fun _ _ ↦ rfl⟩
  | vidmap screenStart =>
      simp only [Illinix.step, hcall, vidmap] at hstep
      split at hstep
      · cases hstep
        exact refl k p
      · rename_i hrange
        obtain ⟨-, hlo, -⟩ := not_not.mp hrange
        have hbase : userBase (setVidmap M.pt k.paging) = userFrame r :=
          hd.layout.setVidmap.userBase_eq hd.lt
        split at hstep
        · rename_i hfits
          cases hstep
          refine ⟨id, rfl, fun a ha ↦ ?_⟩
          have hfit : screenStart - userProgLoc + (wordBytes vidmapAddr).length ≤ fourMeg := by
            rw [show (wordBytes vidmapAddr).length = bytesInInt from rfl]
            omega
          dsimp only
          exact storeBytes_other (congrArg (· + _) hbase) hpr hfit ha
        · have hmapped : Spares k (k.vidmapped M) p := ⟨id, rfl, fun _ _ ↦ rfl⟩
          exact hmapped.trans (halt hstep hf hcur hnum hp hlive)

/-- A copy to the running program. -/
theorem copyOut {buf : Nat} {bytes : List UInt8} {vid : Bool} {r : Nat}
    (hlayout : Layout M.pt (some r) vid k.paging) (hr : r < maxNumProcesses) (hpr : p ≠ r)
    (hcopy : k.copyOut buf bytes = some k') : Spares k k' p := by
  rw [Kernel.copyOut] at hcopy
  split at hcopy
  · cases hcopy
    exact refl k p
  · split at hcopy
    · rename_i hroom
      cases hcopy
      refine ⟨id, rfl, fun a ha ↦ ?_⟩
      have hfit : buf - userProgLoc + bytes.length ≤ fourMeg := by
        obtain ⟨hlo, hhi⟩ := hroom
        omega
      dsimp only
      exact storeBytes_other (congrArg (· + _) (hlayout.userBase_eq hr)) hpr hfit ha
    · cases hcopy

end Spares

/-! ## Runs of acts -/

/-- One process has the page, the stack and the PCB, whether the video page is visible or not. -/
def Kernel.Sound (M : Machine) (k : Kernel) : Prop := ∃ vid, Designated M k vid

namespace Kernel.Sound

variable {M : Machine} {k k' : Kernel} {ram : Nat → Nat → Nat}

/-- Memory and the descriptors do not matter. -/
theorem change (h : k.Sound M) {pcbs : Nat → Pcb}
    (hlinks : ∀ a, Pcb.SameLinks (k.pcbs a) (pcbs a)) (mem : Nat → UInt8) :
    Kernel.Sound M { k with pcbs := pcbs, mem := mem } := by
  obtain ⟨vid, made, r, hreg, hr, hdes⟩ := h
  refine ⟨vid, made, r, hreg.congr hlinks rfl hreg.active_lt, hr, hdes.lt, hdes.layout, hdes.esp0,
    hdes.current, ?_⟩
  exact (hlinks _).processNum.trans hdes.num

theorem copyOut {buf : Nat} {bytes : List UInt8} (h : k.Sound M)
    (hcopy : k.copyOut buf bytes = some k') : k'.Sound M := by
  rw [Kernel.copyOut] at hcopy
  split at hcopy
  · cases hcopy
    exact h
  · split at hcopy
    · cases hcopy
      exact h.change (fun _ ↦ .refl _) _
    · cases hcopy

/-- Every act keeps the invariant. -/
theorem act (hM : M.HasShell) (h : k.Sound M) {a : Act} (ha : a.Valid M ram k)
    (hnext : a.next M ram k = some k') : k'.Sound M := by
  cases a with
  | store v byte =>
      obtain ⟨x, -, rfl⟩ := Option.map_eq_some_iff.mp hnext
      exact h.change (fun _ ↦ .refl _) _
  | enter e =>
      obtain ⟨vid, hdes⟩ := h
      obtain ⟨o, k₁, hstep, heff⟩ := hdes.step_effect hM ha.1
      have hk : k₁ = k' := Option.some.inj ((next_of_step hstep).symm.trans hnext)
      subst hk
      exact ⟨_, heff.designated ha.1 hdes⟩
  | file esp buf c =>
      simp only [Act.next, Kernel.fileCall] at hnext
      split at hnext
      · cases hnext
      · refine copyOut (h.change (fun x ↦ ?_) _) hnext
        exact (Pcb.SameLinks.setFdArray _ _).update x
  | getargs esp buf nbytes => exact h.copyOut hnext

theorem boot (hM : M.HasShell) (b : BootState) : ∃ k, Illinix.boot M b = some k ∧ k.Sound M := by
  obtain ⟨k, hboot, hdes⟩ := Designated.boot hM b
  exact ⟨k, hboot, false, hdes⟩

end Kernel.Sound

/-- An act of the running process, seen from another one. -/
theorem Spares.act {M : Machine} {ram : Nat → Nat → Nat} {k k' : Kernel} {p : Nat} (hM : M.HasShell)
    (h : k.Sound M) {a : Act} (ha : a.Valid M ram k) (hnext : a.next M ram k = some k')
    (hp : p < maxNumProcesses) (hlive : k.processes p = 1) (hcur : k.current ≠ pcbAddr p) :
    Spares k k' p := by
  obtain ⟨vid, made, r, -, -, hd⟩ := h
  have hpr : p ≠ r := by
    rintro rfl
    exact hcur hd.current
  cases a with
  | store v byte =>
      obtain ⟨x, hx, rfl⟩ := Option.map_eq_some_iff.mp hnext
      refine ⟨id, rfl, fun y hy ↦ Function.update_of_ne ?_ _ _⟩
      rintro rfl
      have hlast : ∀ pid, some r = some pid → pid < maxNumProcesses := by
        rintro pid ⟨⟩
        exact hd.lt
      rcases hd.layout.user_reaches hlast ha hx with ⟨pid, hpid, hin⟩ | ⟨-, hvideo⟩
      · cases hpid
        exact hpr (hy.unique hin)
      · exact hy.not_inVideoPage hvideo
  | enter e =>
      obtain ⟨⟨o, k₁⟩, hstep, rfl⟩ := Option.map_eq_some_iff.mp hnext
      exact Spares.step hM ha.1 ha.2 hd hpr hp hlive hstep
  | file esp buf c =>
      simp only [Act.next, Kernel.fileCall] at hnext
      split at hnext
      · cases hnext
      · rename_i tbl' _
        have hpcb : getPcb esp ≠ pcbAddr p := ha.1.trans_ne hcur
        have hset : Spares k (k.setFdArray (getPcb esp) tbl') p :=
          ⟨id, Function.update_of_ne hpcb.symm _ _, fun _ _ ↦ rfl⟩
        exact hset.trans (copyOut hd.layout hd.lt hpr hnext)
  | getargs esp buf nbytes => exact copyOut hd.layout hd.lt hpr hnext

/-- Runs of valid acts stay within the invariant. -/
theorem Kernel.Sound.exec {M : Machine} {ram : Nat → Nat → Nat} {k k' : Kernel} (hM : M.HasShell)
    (h : k.Sound M) {as : List Act}
    (has : AllSteps (Act.next M ram) (Act.Valid M ram) k as)
    (hexec : exec (Act.next M ram) k as = some k') : k'.Sound M :=
  has.along (Kernel.Sound M) (fun _ _ _ hs ha hn ↦ hs.act hM ha hn) h as k' (List.prefix_refl _)
    hexec

/-- **A suspended process is untouched.**  Take any run from the first shell on, a process
`p` of the table in the state it leads to, and any further run none of whose acts is made
by `p`.  Then `p` is still in the table, its PCB is what it was, and so is every byte of
its 4 MB frame. -/
theorem suspended_untouched (M : Machine) (hM : M.HasShell) (b : BootState)
    (ram : Nat → Nat → Nat) :
    ∃ k₀, boot M b = some k₀ ∧
      ∀ as k, AllSteps (Act.next M ram) (Act.Valid M ram) k₀ as →
        exec (Act.next M ram) k₀ as = some k →
        ∀ p, p < maxNumProcesses → k.processes p = 1 →
          ∀ as' k', AllSteps (Act.next M ram)
              (fun k a ↦ a.Valid M ram k ∧ k.current ≠ pcbAddr p) k as' →
            exec (Act.next M ram) k as' = some k' →
            k'.processes p = 1 ∧ k'.pcbs (pcbAddr p) = k.pcbs (pcbAddr p) ∧
              ∀ a, InUserFrame p a → k'.mem a = k.mem a := by
  obtain ⟨k₀, hboot, h₀⟩ := Kernel.Sound.boot hM b
  refine ⟨k₀, hboot, fun as k has hexec p hp hlive as' k' has' hexec' ↦ ?_⟩
  have hk := h₀.exec hM has hexec
  have hspares : k'.Sound M ∧ Spares k k' p := by
    refine has'.along (fun s ↦ s.Sound M ∧ Spares k s p) ?_ ⟨hk, .refl k p⟩ as' k'
      (List.prefix_refl _) hexec'
    rintro s a s' ⟨hs, hsp⟩ ⟨ha, hcur⟩ hn
    exact ⟨hs.act hM ha hn, hsp.trans (.act hM hs ha hn hp (hsp.live hlive) hcur)⟩
  exact ⟨hspares.2.live hlive, hspares.2.pcb, hspares.2.mem⟩

/-- `Act.Valid` as a computation, for programs that fit. -/
def Act.check (M : Machine) (k : Kernel) : Act → Bool
  | .store v _ => decide (v < 2 ^ 32)
  | .enter e => decide (e.Valid k) && e.checkFits M k
  | .file esp buf c => decide (getPcb esp = k.current) &&
      let bytes := Kernel.fileBytes M.img (k.pcbs (getPcb esp)).fdArray c
      decide (bytes = [] ∨ InUserPage buf bytes.length)
  | .getargs esp buf nbytes => decide (getPcb esp = k.current) &&
      let bytes := k.getargsBytes esp nbytes
      decide (bytes = [] ∨ InUserPage buf bytes.length)

/-- A program that fits does not fault. -/
theorem Event.Fits.loadsUpToFault {M : Machine} {k : Kernel} {e : Event} (h : e.Fits M k)
    (ram : Nat → Nat → Nat) : e.LoadsUpToFault M ram k := by
  intro command dentry q hc hq hvalid hno
  refine absurd (h command dentry hc ?_ hvalid) hno
  rw [hq]
  exact Option.some_ne_none q

theorem Act.valid_of_check {M : Machine} {ram : Nat → Nat → Nat} {k : Kernel} {a : Act}
    (h : a.check M k = true) : a.Valid M ram k := by
  cases a with
  | store v _ => exact of_decide_eq_true (p := v < 2 ^ 32) h
  | enter e =>
      obtain ⟨hvalid, hfits⟩ := (Bool.and_eq_true _ _).mp h
      exact ⟨of_decide_eq_true hvalid, (Event.fits_of_checkFits hfits).loadsUpToFault ram⟩
  | file esp buf c =>
      obtain ⟨hesp, hbuf⟩ := (Bool.and_eq_true _ _).mp h
      exact ⟨of_decide_eq_true hesp, of_decide_eq_true hbuf⟩
  | getargs esp buf nbytes =>
      obtain ⟨hesp, hbuf⟩ := (Bool.and_eq_true _ _).mp h
      exact ⟨of_decide_eq_true hesp, of_decide_eq_true hbuf⟩

/-- The first shell waits while its child stores to memory, opens a file, asks for its
arguments, and a second terminal is opened. -/
theorem suspended_untouched_session :
    ∃ k₀ k k', boot tinyMachine tinyBoot = some k₀ ∧
      exec (Act.next tinyMachine fun _ _ ↦ 0) k₀ [.enter (tinyEvent 0 tinyShell)] = some k ∧
      exec (Act.next tinyMachine fun _ _ ↦ 0) k
        [.store 0x08000010 7, .file (stackTop 1 - 0x40) 0 (.openFd shellName),
          .getargs (stackTop 1 - 0x40) 0x08000100 8, .enter (tinyEvent 1 (.switchToTty 1)),
          .store 0x083ffffc 1] = some k' ∧
      k'.pcbs (pcbAddr 0) = k.pcbs (pcbAddr 0) := by
  obtain ⟨k₀, hboot, hrun⟩ := suspended_untouched tinyMachine tinyMachine_hasShell tinyBoot
    fun _ _ ↦ 0
  have hfirst : (boot tinyMachine tinyBoot).all fun k ↦
      checkSteps (Act.next tinyMachine fun _ _ ↦ 0) (fun k a ↦ a.check tinyMachine k) k
        [.enter (tinyEvent 0 tinyShell)] := by decide
  obtain ⟨k, hk⟩ : ∃ k, exec (Act.next tinyMachine fun _ _ ↦ 0) k₀
      [.enter (tinyEvent 0 tinyShell)] = some k := by
    cases hboot
    exact ⟨_, rfl⟩
  rw [hboot, Option.all_some] at hfirst
  obtain ⟨k', hk'⟩ : ∃ k', exec (Act.next tinyMachine fun _ _ ↦ 0) k
        [.store 0x08000010 7, .file (stackTop 1 - 0x40) 0 (.openFd shellName),
          .getargs (stackTop 1 - 0x40) 0x08000100 8, .enter (tinyEvent 1 (.switchToTty 1)),
          .store 0x083ffffc 1] = some k' := by
    cases hboot
    cases hk
    exact ⟨_, rfl⟩
  have hlive : k.processes 0 = 1 := by
    cases hboot
    cases hk
    rfl
  have hsecond : AllSteps (Act.next tinyMachine fun _ _ ↦ 0)
      (fun k a ↦ a.Valid tinyMachine (fun _ _ ↦ 0) k ∧ k.current ≠ pcbAddr 0) k
        [.store 0x08000010 7, .file (stackTop 1 - 0x40) 0 (.openFd shellName),
          .getargs (stackTop 1 - 0x40) 0x08000100 8, .enter (tinyEvent 1 (.switchToTty 1)),
          .store 0x083ffffc 1] := by
    cases hboot
    cases hk
    refine AllSteps.of_checkSteps
      (q := fun k a ↦ a.check tinyMachine k && decide (k.current ≠ pcbAddr 0)) ?_ (by decide)
    intro k a h
    rw [Bool.and_eq_true, decide_eq_true_eq] at h
    exact ⟨Act.valid_of_check h.1, h.2⟩
  have hsame := hrun _ k (AllSteps.of_checkSteps (fun _ _ ↦ Act.valid_of_check) hfirst) hk 0
    (by decide) hlive _ k' hsecond hk'
  exact ⟨k₀, k, k', hboot, hk, hk', hsame.2.1⟩

/-! ## The arguments of a program -/

section Args

variable {M : Machine} {k k' : Kernel} {x : Nat}

theorem Kernel.launch_args {q : Nat} {f : Frame} {l : Locals} {args bytes : List UInt8}
    (hx : x ≠ pcbAddr q) : ((k.launch M q f l args bytes).pcbs x).args = (k.pcbs x).args := by
  rw [Kernel.launch_pcbs, Function.update_of_ne hx]
  by_cases hp : x = k.newParent q f
  · subst hp
    rw [Function.update_self]
    rfl
  · rw [Function.update_of_ne hp]

theorem Kernel.closed_args (k : Kernel) (ebx : Int) :
    ((k.closed ebx).pcbs x).args = (k.pcbs x).args := by
  by_cases hx : x = k.current
  · subst hx
    simp only [Kernel.closed, Kernel.closeFiles, Function.update_self]
  · simp only [Kernel.closed, Kernel.closeFiles, Function.update_of_ne hx]

theorem Kernel.saveFrame_args (k : Kernel) (a : Nat) (f : Frame) :
    ((k.saveFrame a f).pcbs x).args = (k.pcbs x).args := by
  by_cases hx : x = a
  · subst hx
    rw [Kernel.saveFrame_pcbs, Function.update_self]
    rfl
  · rw [Kernel.saveFrame_pcbs, Function.update_of_ne hx]

theorem HaltEffect.args {f : Frame} {l : Locals} {ebx : Int} {o : Outcome}
    (h : HaltEffect M k f l ebx o k') (hx : ∀ q eip, o = .enters q eip → x ≠ pcbAddr q) :
    (k'.pcbs x).args = (k.pcbs x).args := by
  cases h with
  | restarts _ _ => exact (Kernel.launch_args (hx _ _ rfl)).trans (k.closed_args ebx)
  | returns _ => exact k.closed_args ebx

/-- Only the `execute` that starts a program writes its arguments. -/
theorem Effect.args {e : Event} {o : Outcome} (h : Effect M k e o k')
    (hx : ∀ q eip, o = .enters q eip → x ≠ pcbAddr q) :
    (k'.pcbs x).args = (k.pcbs x).args := by
  cases h with
  | tickStays _ => exact k.saveFrame_args k.current e.frame
  | tickSwitches _ _ _ => exact k.saveFrame_args k.current e.frame
  | executes _ _ _ => exact Kernel.launch_args (hx _ _ rfl)
  | opens _ _ _ => exact Kernel.launch_args (hx _ _ rfl)
  | vidmapFaults _ _ hh => exact hh.args hx
  | executeFaults _ _ _ hh => exact hh.args hx
  | halts _ hh => exact hh.args hx
  | _ => rfl

theorem Effect.enters_lt {e : Event} {o : Outcome} {q eip : Nat} (h : Effect M k e o k')
    (ho : o = .enters q eip) : q < maxNumProcesses := by
  have hhalt : ∀ {k₁ : Kernel} {f : Frame} {l : Locals} {ebx : Int},
      HaltEffect M k₁ f l ebx o k' → q < maxNumProcesses := by
    intro k₁ f l ebx hh
    cases hh with
    | restarts _ hq =>
        cases ho
        exact (Kernel.freeSlot_eq_some.mp hq).1
    | returns _ => cases ho
  cases h with
  | executes _ hq _ =>
      cases ho
      exact (Kernel.freeSlot_eq_some.mp hq).1
  | opens _ _ hq =>
      cases ho
      exact (Kernel.freeSlot_eq_some.mp hq).1
  | vidmapFaults _ _ hh => exact hhalt hh
  | executeFaults _ _ _ hh => exact hhalt hh
  | halts _ hh => exact hhalt hh
  | _ => cases ho

theorem Kernel.copyOut_pcbs {buf : Nat} {bytes : List UInt8} (h : k.copyOut buf bytes = some k') :
    k'.pcbs = k.pcbs := by
  rw [Kernel.copyOut] at h
  split at h
  · cases h
    rfl
  · split at h
    · cases h
      rfl
    · cases h

/-- An act that starts no program as process `q` leaves its arguments alone. -/
theorem Act.args (hM : M.HasShell) {ram : Nat → Nat → Nat} {q : Nat} (hq : q < maxNumProcesses)
    (hs : k.Sound M) {a : Act} (ha : a.Valid M ram k) (hno : ¬ a.Enters M k q)
    (hnext : Act.next M ram k a = some k') :
    (k'.pcbs (pcbAddr q)).args = (k.pcbs (pcbAddr q)).args := by
  cases a with
  | store v byte =>
      obtain ⟨x, -, rfl⟩ := Option.map_eq_some_iff.mp hnext
      rfl
  | enter e =>
      obtain ⟨vid, hdes⟩ := hs
      obtain ⟨o, k₁, hstep, heff⟩ := hdes.step_effect hM ha.1
      have hk : k₁ = k' := Option.some.inj ((next_of_step hstep).symm.trans hnext)
      subst hk
      refine heff.args fun q' eip ho heq ↦ hno ⟨eip, k₁, ?_⟩
      rw [pcbAddr_inj hq (heff.enters_lt ho) heq, ← ho]
      exact hstep
  | file esp buf c =>
      simp only [Act.next, Kernel.fileCall] at hnext
      split at hnext
      · cases hnext
      · rename_i tbl' _
        rw [Kernel.copyOut_pcbs hnext]
        by_cases hx : pcbAddr q = getPcb esp
        · simp only [Kernel.setFdArray, hx, Function.update_self]
        · simp only [Kernel.setFdArray, Function.update_of_ne hx]
  | getargs esp buf nbytes => rw [Kernel.copyOut_pcbs hnext]

theorem Kernel.getargsBytes_eq (k : Kernel) (esp : Nat) (nbytes : Int) :
    k.getargsBytes esp nbytes =
      (List.range' 0 (min nbytes.toNat argsArrSize)).map (k.pcbs (getPcb esp)).args := by
  have htoread : (if nbytes > argsArrSize then (argsArrSize : Int) else nbytes).toNat =
      min nbytes.toNat argsArrSize := by
    split <;> omega
  rw [Kernel.getargsBytes, htoread, getargsStores_eq, map_snd_logAt]

/-- What `getargs` stores, read back through the addresses of the program. -/
theorem Kernel.getargsCall_stored (esp : Nat) {vid : Bool} {r buf : Nat} {nbytes : Int}
    (hlayout : Layout M.pt (some r) vid k.paging) (hr : r < maxNumProcesses)
    (hlo : userProgLoc ≤ buf)
    (hhi : buf + min nbytes.toNat argsArrSize ≤ userProgLoc + fourMeg) (ram : Nat → Nat → Nat) :
    ∃ k'', k.getargsCall esp buf nbytes = some k'' ∧
      ∀ i, i < min nbytes.toNat argsArrSize →
        ∃ a, translate M.pt ram .user k''.paging (buf + i) = some a ∧
          k''.mem a = (k.pcbs (getPcb esp)).args i := by
  simp only [Kernel.getargsCall, Kernel.getargsBytes_eq, Kernel.copyOut]
  generalize min nbytes.toNat argsArrSize = n at hhi
  generalize hbytes : (List.range' 0 n).map (k.pcbs (getPcb esp)).args = bytes
  have hlen : bytes.length = n := by rw [← hbytes, List.length_map, List.length_range']
  by_cases hnil : bytes = []
  · rw [if_pos hnil]
    refine ⟨k, rfl, fun i hi ↦ ?_⟩
    rw [hnil, List.length_nil] at hlen
    omega
  · rw [if_neg hnil, if_pos ⟨hlo, by rwa [hlen]⟩]
    refine ⟨_, rfl, fun i hi ↦ ⟨_, hlayout.translate_userPage hr (by omega) (by omega), ?_⟩⟩
    have hget : bytes.getD i 0 = (k.pcbs (getPcb esp)).args i := by
      rw [← hbytes, List.getD_eq_getElem _ _ (by rwa [hbytes, hlen]), List.getElem_map,
        List.getElem_range', Nat.one_mul, Nat.zero_add]
    have hoff : buf + i - userProgLoc = buf - userProgLoc + i := by omega
    dsimp only
    rw [hlayout.userBase_eq hr, storeBytes, hoff, ← Nat.add_assoc,
      if_pos ⟨Nat.le_add_right _ _, Nat.add_lt_add_left (by rwa [hlen]) _⟩, Nat.add_sub_cancel_left,
      hget]

/-- **The arguments of a program stay its own.**  A program that `execute` starts from a
command as process `q` gets from `getargs` what `parse_args` found behind the first word,
however long it has run and whatever other programs have been started in between. -/
theorem args_kept (M : Machine) (hM : M.HasShell) (b : BootState) (ram : Nat → Nat → Nat) :
    ∃ k₀, boot M b = some k₀ ∧
      ∀ as k, AllSteps (Act.next M ram) (Act.Valid M ram) k₀ as →
        exec (Act.next M ram) k₀ as = some k →
        ∀ (e : Event) command q eip k₁, e.Valid k → e.call = .execute command →
          execute M k e.frame e.locals command = some (.entered q eip k₁) →
          ∀ as' k', AllSteps (Act.next M ram) (fun k a ↦ a.Valid M ram k ∧ ¬ a.Enters M k q) k₁
              as' →
            exec (Act.next M ram) k₁ as' = some k' → k'.current = pcbAddr q →
            ∀ esp buf nbytes, getPcb esp = k'.current → userProgLoc ≤ buf →
              buf + min nbytes.toNat argsArrSize ≤ userProgLoc + fourMeg →
              ∃ k'', Act.next M ram k' (.getargs esp buf nbytes) = some k'' ∧
                ∀ i, i < min nbytes.toNat argsArrSize →
                  ∃ a, translate M.pt ram .user k''.paging (buf + i) = some a ∧
                    k''.mem a = (parseArgs command).2.getD i 0 := by
  obtain ⟨k₀, hboot, h₀⟩ := Kernel.Sound.boot hM b
  refine ⟨k₀, hboot, fun as k has hexec e command q eip k₁ he hcall hentered as' k' has' hexec' hcur
    esp buf nbytes hesp hlo hhi ↦ ?_⟩
  obtain ⟨vid, hk⟩ := h₀.exec hM has hexec
  have hstep : step M k e = some (.enters q eip, k₁) := by
    simp only [step, hcall, hentered]
  have hk₁ : k₁.Sound M := by
    obtain ⟨o, k₂, hstep', heff⟩ := hk.step_effect hM he
    cases hstep.symm.trans hstep'
    exact ⟨_, heff.designated he hk⟩
  obtain ⟨hfree, bytes, -, hlaunch⟩ := execute_entered hentered
  have hq : q < maxNumProcesses := (Kernel.freeSlot_eq_some.mp hfree).1
  have hargs₁ : (k₁.pcbs (pcbAddr q)).args = Bytes.ofList (parseArgs command).2 := by
    rw [hlaunch, Kernel.launch_pcbs_self]
    rfl
  obtain ⟨hk', hargs⟩ : k'.Sound M ∧
      (k'.pcbs (pcbAddr q)).args = Bytes.ofList (parseArgs command).2 := by
    refine has'.along (fun s ↦ s.Sound M ∧ (s.pcbs (pcbAddr q)).args = _) ?_ ⟨hk₁, hargs₁⟩ as' k'
      (List.prefix_refl _) hexec'
    rintro s a s' ⟨hs, hsargs⟩ ⟨ha, hno⟩ hn
    exact ⟨hs.act hM ha hn, (Act.args hM hq hs ha hno hn).trans hsargs⟩
  obtain ⟨vid', made, r, -, -, hd⟩ := hk'
  obtain ⟨k'', hget, hbytes⟩ := Kernel.getargsCall_stored esp hd.layout hd.lt hlo hhi ram
  refine ⟨k'', hget, fun i hi ↦ ?_⟩
  obtain ⟨a, ha, hmem⟩ := hbytes i hi
  rw [hesp, hcur, hargs] at hmem
  exact ⟨a, ha, hmem⟩

end Args

/-- `Act.Enters` as a computation. -/
def Act.checkEnters (M : Machine) (k : Kernel) (q : Nat) : Act → Bool
  | .enter e =>
      match step M k e with
      | some (.enters q' _, _) => q' == q
      | _ => false
  | _ => false

theorem Act.checkEnters_of_enters {M : Machine} {k : Kernel} {q : Nat} {a : Act}
    (h : a.Enters M k q) : a.checkEnters M k q = true := by
  cases a with
  | enter e =>
      obtain ⟨eip, k', hstep⟩ := h
      rw [Act.checkEnters, hstep]
      exact beq_self_eq_true q
  | _ => exact h.elim

/-- The command `shell hi`. -/
def helloCommand : Bytes := Bytes.ofList [0x73, 0x68, 0x65, 0x6c, 0x6c, 0x20, 0x68, 0x69]

/-- A shell that is started with `hi` runs another one, and asks for its arguments when that
has ended. -/
theorem args_kept_after_child :
    ∃ k₀ k₁ k' k'' eip a, boot tinyMachine tinyBoot = some k₀ ∧
      execute tinyMachine k₀ (tinyEvent 0 (.execute helloCommand)).frame tinyLocals helloCommand =
        some (.entered 1 eip k₁) ∧
      exec (Act.next tinyMachine fun _ _ ↦ 0) k₁
        [.enter (tinyEvent 1 tinyShell), .enter (tinyEvent 2 (.halt .syscall 0))] = some k' ∧
      Act.next tinyMachine (fun _ _ ↦ 0) k' (.getargs (stackTop 1 - 0x40) 0x08000100 8) =
        some k'' ∧
      translate tinyMachine.pt (fun _ _ ↦ 0) .user k''.paging 0x08000101 = some a ∧
      k''.mem a = 0x69 := by
  obtain ⟨k₀, hboot, hrun⟩ := args_kept tinyMachine tinyMachine_hasShell tinyBoot fun _ _ ↦ 0
  obtain ⟨eip, k₁, hentered⟩ : ∃ eip k₁, execute tinyMachine k₀
      (tinyEvent 0 (.execute helloCommand)).frame tinyLocals helloCommand =
        some (.entered 1 eip k₁) := by
    cases hboot
    exact ⟨_, _, rfl⟩
  obtain ⟨k', hexec⟩ : ∃ k', exec (Act.next tinyMachine fun _ _ ↦ 0) k₁
      [.enter (tinyEvent 1 tinyShell), .enter (tinyEvent 2 (.halt .syscall 0))] = some k' := by
    cases hboot
    cases hentered
    exact ⟨_, rfl⟩
  have he : (tinyEvent 0 (.execute helloCommand)).Valid k₀ := by
    cases hboot
    decide
  have hsteps : AllSteps (Act.next tinyMachine fun _ _ ↦ 0)
      (fun k a ↦ a.Valid tinyMachine (fun _ _ ↦ 0) k ∧ ¬ a.Enters tinyMachine k 1) k₁
      [.enter (tinyEvent 1 tinyShell), .enter (tinyEvent 2 (.halt .syscall 0))] := by
    cases hboot
    cases hentered
    refine AllSteps.of_checkSteps
      (q := fun k a ↦ a.check tinyMachine k && !a.checkEnters tinyMachine k 1) ?_ (by decide)
    intro k a h
    rw [Bool.and_eq_true, Bool.not_eq_true'] at h
    refine ⟨Act.valid_of_check h.1, fun hent ↦ ?_⟩
    rw [Act.checkEnters_of_enters hent] at h
    cases h.2
  have hcur : k'.current = pcbAddr 1 := by
    cases hboot
    cases hentered
    cases hexec
    rfl
  obtain ⟨k'', hnext, hbytes⟩ := hrun [] k₀ trivial rfl _ helloCommand 1 eip k₁ he rfl hentered _ k'
    hsteps hexec hcur (stackTop 1 - 0x40) 0x08000100 8 (by rw [hcur]; decide) (by decide)
    (by decide)
  obtain ⟨a, ha, hmem⟩ := hbytes 1 (by decide)
  exact ⟨k₀, k₁, k', k'', eip, a, hboot, hentered, hexec, hnext, ha, hmem⟩

end Illinix
