import Illinix.Process.Kernel

/-!
# Starting a program

`execute` and the helpers it calls: `parse_args`, `check_validity` and `load_file`.

Several locals of `execute` are read before they are written, or only written in part:
the magic bytes of a file shorter than four bytes, the header of one shorter than 28,
the fields of the PCB that `create_pcb` leaves out.  What the stack held in their place
enters as `Locals`.

`execute` ends in one of three ways.  It returns `-1`; it goes to user mode in the new
program; or `load_file` runs off the end of the user page, which is a page fault in the
kernel.  The fourth way, a first word that does not fit in `program`, overwrites the
stack and is not modelled: the result is `none`.
-/

namespace Illinix

def headerSize : Nat := 40
def argsArrSize : Nat := 140
def commandSize : Nat := 133

/-! ## `parse_args` -/

/-- The loop for the program name; `fuel` counts down to `COMMAND_SIZE`. -/
def programLoop (command : Bytes) : Nat → Nat → List UInt8
  | 0, _ => []
  | fuel + 1, i =>
      if command i = 0x20 ∨ command i = 0 then []
      else command i :: programLoop command fuel (i + 1)

/-- The loop for the arguments. -/
def argsLoop (command : Bytes) : Nat → Nat → List UInt8
  | 0, _ => []
  | fuel + 1, i => if command i = 0 then [] else command i :: argsLoop command fuel (i + 1)

/-- The first word of a command. -/
def firstWord (command : Bytes) : List UInt8 := programLoop command commandSize 0

/-- `parse_args`: what it leaves in `program` and in `args`, up to the NUL.  The loop for
the arguments starts one byte after the one that ended the first word, whatever that
byte was. -/
def parseArgs (command : Bytes) : List UInt8 × List UInt8 :=
  let program := firstWord command
  (program, argsLoop command (commandSize - (program.length + 1)) (program.length + 1))

/-! ## `check_validity` -/

/-- The magic bytes of an executable. -/
def magic : List UInt8 := [0x7f, 0x45, 0x4c, 0x46]

/-- A buffer after `read_data` stored into it; `junk` is what it held. -/
def stored (bytes : Option (List UInt8)) (junk : Bytes) (i : Nat) : UInt8 :=
  (bytes.getD []).getD i (junk i)

/-- `check_validity`: the directory entry of an executable, `none` for the result
`-1`. -/
def checkValidity (img : Image) (program exeCheck : Bytes) : Option Dentry :=
  match img.readDentryByName program with
  | none => none
  | some dentry =>
      if dentry.fileType = 2 ∧
          (List.range 4).map (stored (img.readData dentry.inodeNum 0 4) exeCheck) = magic then
        some dentry
      else none

theorem checkValidity_eq_some_iff {img : Image} {program exeCheck : Bytes} {d : Dentry} :
    checkValidity img program exeCheck = some d ↔ img.readDentryByName program = some d ∧
      d.fileType = 2 ∧
      (List.range 4).map (stored (img.readData d.inodeNum 0 4) exeCheck) = magic := by
  rw [checkValidity]
  constructor
  · intro h
    split at h
    · cases h
    · rename_i d' hd
      split at h
      · rename_i hvalid
        cases h
        exact ⟨hd, hvalid⟩
      · cases h
  · rintro ⟨hd, hvalid⟩
    rw [hd]
    dsimp only
    rw [if_pos hvalid]

/-! ## `load_file` -/

/-- The room for a program in the user page, from `VIRTUAL_ADDR` to its end. -/
def programRoom : Nat := userProgLoc + fourMeg - virtualAddr

/-- The loop of `load_file`: the bytes it copies to `VIRTUAL_ADDR` on, 100 at a time;
`none` when a copy leaves the user page.  A failing `read_data` is a copy of
`2 ^ 32 - 1` bytes.  The fuel is one more than the number of copies that fit. -/
def loadLoop (img : Image) (inode length : Nat) : Nat → Nat → Option (List UInt8)
  | 0, _ => none
  | fuel + 1, readSofar =>
      if readSofar = length then some []
      else
        match img.readData inode readSofar 100 with
        | none => none
        | some bytes =>
            if readSofar + bytes.length > programRoom then none
            else (loadLoop img inode length fuel (readSofar + bytes.length)).map (bytes ++ ·)

/-- `load_file`. -/
def loadFile (img : Image) (dentry : Dentry) : Option (List UInt8) :=
  loadLoop img dentry.inodeNum (img.inodeLength dentry.inodeNum) (programRoom + 1) 0

/-- Memory with `bytes` stored from address `a` on. -/
def storeBytes (mem : Nat → UInt8) (a : Nat) (bytes : List UInt8) : Nat → UInt8 :=
  fun x ↦ if a ≤ x ∧ x < a + bytes.length then bytes.getD (x - a) 0 else mem x

/-- The frame that the page directory maps the user page to. -/
def userBase (pg : Paging) : Nat := pg.pageDir userProgramPdirLoc &&& (2 ^ 32 - 2 ^ 22)

/-! ## `execute` -/

/-- What the stack and the registers hold where the code reads them uninitialised. -/
structure Locals where
  exeCheck : Bytes
  fileHeader : Bytes
  pcb : Pcb
  /-- Memory after a load that faulted. -/
  mem : Nat → UInt8
  /-- `EBX` when the load faulted. -/
  ebx : Int

/-- The entry point, bytes 24 to 27 of the header. -/
def entryPoint (img : Image) (inode : Nat) (fileHeader : Bytes) : Nat :=
  let header i := (stored (img.readData inode 0 headerSize) fileHeader i).toNat
  header 27 <<< 24 ||| header 26 <<< 16 ||| header 25 <<< 8 ||| header 24

namespace Kernel

/-- The new process is to be its own parent. -/
def IsRoot (k : Kernel) (q : Nat) : Prop := q = 0 ∨ k.nextOneIsRootShell = true

instance (k : Kernel) (q : Nat) : Decidable (k.IsRoot q) := inferInstanceAs (Decidable (_ ∨ _))

/-- The PCB that the new process gets as its parent. -/
def newParent (k : Kernel) (q : Nat) (f : Frame) : Nat :=
  if k.IsRoot q then pcbAddr q else getPcb f.esp

/-- The PCB that `execute` builds on its stack. -/
def newPcb (k : Kernel) (q : Nat) (f : Frame) (l : Locals) (args : List UInt8) : Pcb :=
  { l.pcb with
    fdArray := FdArray.create l.pcb.fdArray
    parent := k.newParent q f
    processNum := q
    parentEsp0 := k.esp0
    parentSs0 := k.ss0
    args := Bytes.ofList args
    tty := k.activeTty }

section NewPcb

variable {k : Kernel} {q : Nat} {f : Frame} {l : Locals} {args : List UInt8}

theorem newParent_of_isRoot (h : k.IsRoot q) : k.newParent q f = pcbAddr q := if_pos h

theorem newParent_of_not_isRoot (h : ¬ k.IsRoot q) : k.newParent q f = getPcb f.esp := if_neg h

theorem newPcb_parent_of_isRoot (h : k.IsRoot q) : (k.newPcb q f l args).parent = pcbAddr q :=
  if_pos h

theorem newPcb_parent_of_not_isRoot (h : ¬ k.IsRoot q) :
    (k.newPcb q f l args).parent = getPcb f.esp := if_neg h

end NewPcb

/-- Steps 2 and 3 of `execute`: the process number is taken and its page mapped. -/
def claim (M : Machine) (k : Kernel) (q : Nat) : Kernel :=
  { k with
    processes := Function.update k.processes q 1
    currProcess := q
    paging := createPage M.pt q k.paging }

/-- The rest of `execute`, after the program was loaded.  The stack and frame pointers
are stored in the parent first; for a root that is the place the new PCB is then copied
to. -/
def launch (M : Machine) (k : Kernel) (q : Nat) (f : Frame) (l : Locals)
    (args program : List UInt8) : Kernel :=
  let saved := (k.claim M q).saveFrame (k.newParent q f) f
  { saved with
    mem := storeBytes k.mem (userBase saved.paging + (virtualAddr - userProgLoc)) program
    ttyTopPid := Function.update k.ttyTopPid k.activeTty q
    nextOneIsRootShell := if k.IsRoot q then false else k.nextOneIsRootShell
    pcbs := Function.update saved.pcbs (pcbAddr q) (k.newPcb q f l args)
    ss0 := kernelDs
    esp0 := stackTop q
    current := pcbAddr q }

section Launch

variable (M : Machine) (k : Kernel) (q : Nat) (f : Frame) (l : Locals) (args program : List UInt8)

@[simp] theorem launch_processes :
    (k.launch M q f l args program).processes = Function.update k.processes q 1 := rfl
@[simp] theorem launch_pcbs : (k.launch M q f l args program).pcbs =
    Function.update (Function.update k.pcbs (k.newParent q f)
      ((k.pcbs (k.newParent q f)).setFrame f)) (pcbAddr q) (k.newPcb q f l args) := rfl
@[simp] theorem launch_activeTty : (k.launch M q f l args program).activeTty = k.activeTty := rfl
@[simp] theorem launch_ttyTopPid : (k.launch M q f l args program).ttyTopPid =
    Function.update k.ttyTopPid k.activeTty q := rfl
@[simp] theorem launch_current : (k.launch M q f l args program).current = pcbAddr q := rfl

/-- No new process leaves the flag set. -/
@[simp] theorem launch_flag : (k.launch M q f l args program).nextOneIsRootShell = false := by
  rw [launch]
  dsimp only
  split
  · rfl
  · rename_i h
    rw [IsRoot, not_or, Bool.not_eq_true] at h
    exact h.2

/-- The other processes keep their links. -/
theorem launch_sameLinks {a : Nat} (ha : a ≠ pcbAddr q) :
    Pcb.SameLinks (k.pcbs a) ((k.launch M q f l args program).pcbs a) := by
  rw [launch_pcbs, Function.update_of_ne ha]
  exact Pcb.SameLinks.update (.setFrame _ _) a

@[simp] theorem launch_pcbs_self :
    (k.launch M q f l args program).pcbs (pcbAddr q) = k.newPcb q f l args := by
  rw [launch_pcbs, Function.update_self]

/-- The stack and frame pointers go to the parent. -/
theorem launch_frame_of_ne {a : Nat} (ha : a ≠ pcbAddr q) (hp : a ≠ k.newParent q f) :
    ((k.launch M q f l args program).pcbs a).frame = (k.pcbs a).frame := by
  rw [launch_pcbs, Function.update_of_ne ha, Function.update_of_ne hp]

theorem launch_frame_newParent (h : k.newParent q f ≠ pcbAddr q) :
    ((k.launch M q f l args program).pcbs (k.newParent q f)).frame = f := by
  rw [launch_pcbs, Function.update_of_ne h, Function.update_self, Pcb.setFrame_frame]

end Launch

end Kernel

/-- How `execute` ends. -/
inductive ExecResult
  | /-- It returns `-1`. -/
    error
  | /-- It goes to user mode, in process `pid` at `eip`. -/
    entered (pid eip : Nat) (k : Kernel)
  | /-- It page-faults while it loads the program. -/
    fault (k : Kernel)

/-- `execute`. -/
def execute (M : Machine) (k : Kernel) (f : Frame) (l : Locals) (command : Bytes) :
    Option ExecResult :=
  let (program, args) := parseArgs command
  if program.length ≥ fileNameSize then none
  else
    match k.freeSlot with
    | none => some .error
    | some q =>
        match checkValidity M.img (Bytes.ofList program) l.exeCheck with
        | none => some .error
        | some dentry =>
            match loadFile M.img dentry with
            | none => some (.fault { k.claim M q with mem := l.mem })
            | some bytes =>
                some (.entered q (entryPoint M.img dentry.inodeNum l.fileHeader)
                  (k.launch M q f l args bytes))

/-- The program that a command names: a directory entry that passes `check_validity`, and
what `load_file` copies. -/
def Loads (M : Machine) (l : Locals) (command : Bytes) (bytes : List UInt8) : Prop :=
  ∃ dentry, checkValidity M.img (Bytes.ofList (firstWord command)) l.exeCheck = some dentry ∧
    loadFile M.img dentry = some bytes

/-- Everything `execute` can do. -/
theorem execute_cases {M : Machine} {k : Kernel} {f : Frame} {l : Locals} {command : Bytes}
    (hword : (firstWord command).length < fileNameSize) :
    execute M k f l command = some .error ∨
      (∃ q eip args bytes, k.freeSlot = some q ∧ Loads M l command bytes ∧
        execute M k f l command = some (.entered q eip (k.launch M q f l args bytes))) ∨
      ∃ q, k.freeSlot = some q ∧
        execute M k f l command = some (.fault { k.claim M q with mem := l.mem }) := by
  have hlen : ¬ (parseArgs command).1.length ≥ fileNameSize := Nat.not_le.mpr hword
  simp only [execute, if_neg hlen]
  cases k.freeSlot with
  | none => exact Or.inl rfl
  | some q =>
      dsimp only
      split
      · exact Or.inl rfl
      · rename_i dentry hvalid
        split
        · exact Or.inr (Or.inr ⟨q, rfl, rfl⟩)
        · rename_i bytes hload
          exact Or.inr (Or.inl ⟨q, _, _, bytes, rfl, ⟨dentry, hvalid, hload⟩, rfl⟩)

/-! ## Loading succeeds when there is room -/

section Load

variable {img : Image} {inode : Nat}

/-- One pass of the loop. -/
theorem loadLoop_succ (hi : inode ≤ img.numInodes) (fuel : Nat) {readSofar : Nat}
    (hne : readSofar ≠ img.inodeLength inode) :
    loadLoop img inode (img.inodeLength inode) (fuel + 1) readSofar =
      let bytes := img.readDataLoop inode 100 readSofar
      if readSofar + bytes.length > programRoom then none
      else (loadLoop img inode (img.inodeLength inode) fuel (readSofar + bytes.length)).map
        (bytes ++ ·) := by
  rw [loadLoop, if_neg hne, Image.readData, if_neg (Nat.not_lt.mpr hi)]

theorem loadLoop_eq (hi : inode ≤ img.numInodes) (hroom : img.inodeLength inode ≤ programRoom)
    {fuel readSofar : Nat} (hle : readSofar ≤ img.inodeLength inode)
    (hfuel : programRoom < fuel + readSofar) :
    loadLoop img inode (img.inodeLength inode) fuel readSofar =
      some (img.readDataLoop inode (img.inodeLength inode - readSofar) readSofar) := by
  induction fuel generalizing readSofar with
  | zero => omega
  | succ fuel ih =>
      by_cases hend : readSofar = img.inodeLength inode
      · rw [loadLoop, if_pos hend, hend, Nat.sub_self]
        rfl
      · have hlen : (img.readDataLoop inode 100 readSofar).length =
            min 100 (img.inodeLength inode - readSofar) := Image.length_readDataLoop _ _ _
        rw [loadLoop_succ hi fuel hend]
        dsimp only
        rw [if_neg (by omega), ih (by omega) (by omega), Option.map_some,
          Image.readDataLoop_piece inode 100 readSofar]

/-- A program that is too long runs off the page. -/
theorem loadLoop_eq_none (hi : inode ≤ img.numInodes) (hroom : programRoom < img.inodeLength inode)
    {fuel readSofar : Nat} (hle : readSofar ≤ programRoom) :
    loadLoop img inode (img.inodeLength inode) fuel readSofar = none := by
  induction fuel generalizing readSofar with
  | zero => rfl
  | succ fuel ih =>
      rw [loadLoop_succ hi fuel (by omega)]
      dsimp only
      split
      · rfl
      · rw [ih (by omega), Option.map_none]

/-- **`load_file` copies the file if it fits.** -/
theorem loadFile_eq {dentry : Dentry} (hi : dentry.inodeNum ≤ img.numInodes) :
    loadFile img dentry =
      if img.inodeLength dentry.inodeNum ≤ programRoom then
        some (img.readDataLoop dentry.inodeNum (img.inodeLength dentry.inodeNum) 0)
      else none := by
  rw [loadFile]
  split
  · rename_i hroom
    exact loadLoop_eq hi hroom (Nat.zero_le _) (by omega)
  · rename_i hroom
    exact loadLoop_eq_none hi (Nat.not_le.mp hroom) (Nat.zero_le _)

/-- The file of an inode can be copied into the user page: it is no longer than the room there, and
the number is in range, unless there is nothing to read. -/
def Image.FitsPage (img : Image) (inode : Nat) : Prop :=
  img.inodeLength inode ≤ programRoom ∧ (inode ≤ img.numInodes ∨ img.inodeLength inode = 0)

instance : Decidable (img.FitsPage inode) := inferInstanceAs (Decidable (_ ∧ _))

theorem loadFile_eq_none_iff {dentry : Dentry} :
    loadFile img dentry = none ↔ ¬ img.FitsPage dentry.inodeNum := by
  by_cases hi : dentry.inodeNum ≤ img.numInodes
  · rw [loadFile_eq hi, Image.FitsPage, and_iff_left (Or.inl hi)]
    split
    · rename_i hroom
      exact iff_of_false (fun h ↦ nomatch h) (not_not_intro hroom)
    · rename_i hroom
      exact iff_of_true rfl hroom
  · rw [Image.FitsPage, or_iff_right hi, loadFile, loadLoop]
    by_cases hzero : img.inodeLength dentry.inodeNum = 0
    · rw [if_pos hzero.symm, hzero]
      exact iff_of_false (fun h ↦ nomatch h) (not_not_intro ⟨Nat.zero_le _, rfl⟩)
    · rw [if_neg (Ne.symm hzero), Image.readData, if_pos (Nat.not_le.mp hi)]
      exact iff_of_true rfl fun h ↦ hzero h.2

end Load

/-- The image holds an executable of the given name that fits in the user page. -/
structure Image.HasExecutable (img : Image) (name : Bytes) (dentry : Dentry) : Prop where
  found : img.readDentryByName name = some dentry
  fileType : dentry.fileType = 2
  inode_le : dentry.inodeNum ≤ img.numInodes
  magic : img.readData dentry.inodeNum 0 4 = some magic
  length_le : img.inodeLength dentry.inodeNum ≤ programRoom

namespace Image.HasExecutable

variable {img : Image} {name : Bytes} {dentry : Dentry}

theorem checkValidity (h : img.HasExecutable name dentry) (exeCheck : Bytes) :
    checkValidity img name exeCheck = some dentry := by
  refine checkValidity_eq_some_iff.mpr ⟨h.found, h.fileType, ?_⟩
  rw [h.magic]
  rfl

theorem loadFile (h : img.HasExecutable name dentry) :
    ∃ bytes, loadFile img dentry = some bytes := by
  rw [loadFile_eq h.inode_le, if_pos h.length_le]
  exact ⟨_, rfl⟩

end Image.HasExecutable

/-- `execute` of an executable fails for want of a process number only. -/
theorem execute_of_hasExecutable {M : Machine} {dentry : Dentry} {command : Bytes}
    (h : M.img.HasExecutable (Bytes.ofList (firstWord command)) dentry)
    (hword : (firstWord command).length < fileNameSize) (k : Kernel) (f : Frame) (l : Locals) :
    (k.freeSlot = none ∧ execute M k f l command = some .error) ∨
      ∃ q eip args bytes, k.freeSlot = some q ∧
        execute M k f l command = some (.entered q eip (k.launch M q f l args bytes)) := by
  have hlen : ¬ (parseArgs command).1.length ≥ fileNameSize := Nat.not_le.mpr hword
  cases hfree : k.freeSlot with
  | none =>
      refine Or.inl ⟨rfl, ?_⟩
      simp only [execute, if_neg hlen, hfree]
  | some q =>
      obtain ⟨bytes, hbytes⟩ := h.loadFile
      have hvalid : Illinix.checkValidity M.img (Bytes.ofList (parseArgs command).1) l.exeCheck =
          some dentry := h.checkValidity l.exeCheck
      refine Or.inr ⟨q, entryPoint M.img dentry.inodeNum l.fileHeader, (parseArgs command).2,
        bytes, rfl, ?_⟩
      simp only [execute, if_neg hlen, hfree, hvalid, hbytes]

end Illinix
