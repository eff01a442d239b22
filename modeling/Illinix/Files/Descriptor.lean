import Illinix.FileSys.Image
import Mathlib.Logic.Function.Basic

/-!
# File descriptors

The eight descriptors of a process are the `fd_array` of its PCB.  A descriptor
carries one of five driver tables (`pcb.c`, `system.c`), a place in the file, and
the flag that says whether it is in use; `close` clears the flag and leaves the
rest as it was.

`openFd`, `close`, `read` and `write` are the four system calls, with the file and
directory drivers of `filesys.c` below them.  A descriptor number is the `int32_t`
that the program passes, so it may be anything.  The line buffer of the terminal
and the clock are not part of this layer: what `terminal_read` answers (and what
`terminal_write` answers on a descriptor other than 1, where it edits the line
buffer) enters a call as the parameter `dev`.
-/

namespace Illinix

def fdArraySize : Nat := 8

/-- The driver tables a descriptor can point to. -/
inductive FileOps
  | terminalInput
  | terminalOutput
  | rtc
  | directory
  | file
deriving DecidableEq, Repr

/-- `fd_struct_t`.  The last field is the type in the embedded `dentry`, the only
part of it that is ever read. -/
structure FdStruct where
  fileOperations : Option FileOps
  inodeNum : Nat
  filePos : Nat
  flags : Nat
  dentryType : Nat
deriving DecidableEq, Repr

/-- `fd_array`. -/
abbrev FdArray := Nat → FdStruct

/-- An `int32_t` passed as a `uint32_t`. -/
def toUInt32 (n : Int) : Nat := (n % 2 ^ 32).toNat

/-- What `read` returns, and the bytes it stores from `buf[0]` on. -/
structure ReadResult where
  ret : Int
  stored : List UInt8
deriving DecidableEq, Repr

/-- A call that only fails. -/
def ReadResult.fail : ReadResult := ⟨-1, []⟩

/-- A descriptor number that is out of bounds. -/
def OutOfRange (fd : Int) : Prop := fd < 0 ∨ fd ≥ fdArraySize

instance (fd : Int) : Decidable (OutOfRange fd) := inferInstanceAs (Decidable (_ ∨ _))

theorem toNat_lt_of_not_outOfRange {fd : Int} (h : ¬ OutOfRange fd) : fd.toNat < fdArraySize := by
  rw [OutOfRange, not_or] at h
  omega

namespace FdArray

/-- The descriptors of `create_pcb`; `junk` is what the stack held in their place. -/
def create (junk : FdArray) : FdArray := fun i ↦
  if i = 0 then { junk 0 with fileOperations := some .terminalInput, inodeNum := 0,
                              filePos := 0, flags := 1 }
  else if i = 1 then { junk 1 with fileOperations := some .terminalOutput, inodeNum := 0,
                                   filePos := 0, flags := 1 }
  else if i < fdArraySize then { junk i with fileOperations := none, inodeNum := 0,
                                             filePos := 0, flags := 0 }
  else junk i

/-! ## Drivers -/

/-- `file_read`. -/
def fileRead (img : Image) (tbl : FdArray) (fd nbytes : Int) : ReadResult × FdArray :=
  if OutOfRange fd then (.fail, tbl)
  else
    let slot := tbl fd.toNat
    match img.readData slot.inodeNum slot.filePos (toUInt32 nbytes) with
    | none =>
        (.fail, Function.update tbl fd.toNat
          { slot with filePos := toUInt32 (slot.filePos + -1) })
    | some bytes =>
        (⟨bytes.length, bytes⟩, Function.update tbl fd.toNat
          { slot with filePos := toUInt32 (slot.filePos + bytes.length) })

/-- The bytes `dir_read` stores: the name as far as `nbytes` allows, then NULs up to
`FILE_NAME_SIZE`. -/
def dirReadBytes (name : List UInt8) (nbytes : Int) : List UInt8 :=
  (List.range fileNameSize).map fun i ↦
    if name.getD i 0 ≠ 0 ∧ (i : Int) < nbytes then name.getD i 0 else 0

/-- `dir_read`. -/
def dirRead (img : Image) (tbl : FdArray) (fd nbytes : Int) : ReadResult × FdArray :=
  if OutOfRange fd then (.fail, tbl)
  else
    let slot := tbl fd.toNat
    match img.readDentryByIndex slot.filePos with
    | none => (.fail, tbl)
    | some dentry =>
        let stored := dirReadBytes dentry.fileName nbytes
        (⟨stored.countP (· ≠ 0), stored⟩, Function.update tbl fd.toNat
          { slot with filePos := toUInt32 (slot.filePos + 1) })

/-- The `read` entry of a driver table; `terminal_output_jump_table` has
`null_func` there. -/
def driverRead (img : Image) (dev : ReadResult) (tbl : FdArray) (fd nbytes : Int) :
    FileOps → ReadResult × FdArray
  | .terminalInput => (dev, tbl)
  | .terminalOutput => (.fail, tbl)
  | .rtc => (⟨0, []⟩, tbl)
  | .directory => dirRead img tbl fd nbytes
  | .file => fileRead img tbl fd nbytes

/-- The `write` entry of a driver table; `terminal_input_jump_table` has
`null_func` there. -/
def driverWrite (dev fd nbytes : Int) : FileOps → Int
  | .terminalInput => -1
  | .terminalOutput => if fd = 1 then nbytes else dev
  | .rtc => if nbytes ≠ 4 then -1 else nbytes
  | .directory => -1
  | .file => -1

/-- The `close` entry of a driver table. -/
def driverClose (fd : Int) : FileOps → Int
  | .directory => if OutOfRange fd then -1 else 0
  | _ => 0

/-! ## System calls -/

/-- `read`. -/
def read (img : Image) (dev : ReadResult) (tbl : FdArray) (fd nbytes : Int) :
    ReadResult × FdArray :=
  if OutOfRange fd then (.fail, tbl)
  else if (tbl fd.toNat).flags = 0 then (.fail, tbl)
  else
    match (tbl fd.toNat).fileOperations with
    | some ops => driverRead img dev tbl fd nbytes ops
    | none =>
        -- no driver: the switch on the embedded entry, which no `open` fills in
        if (tbl fd.toNat).dentryType = 1 then fileRead img tbl fd nbytes
        else (⟨0, []⟩, tbl)

/-- `write`; `none` is the call through a null table that `write` does not guard
against. -/
def write (dev : Int) (tbl : FdArray) (fd nbytes : Int) : Option Int :=
  if OutOfRange fd then some (-1)
  else if (tbl fd.toNat).flags = 1 then
    (tbl fd.toNat).fileOperations.map (driverWrite dev fd nbytes)
  else some (-1)

/-- The descriptor that `open` takes: the first of 2..7 that is not in use. -/
def firstClosed (tbl : FdArray) : Option Nat :=
  (List.range' 2 (fdArraySize - 2)).find? fun i ↦ (tbl i).flags == 0

/-- One case of the switch in `open`. -/
def setOpen (tbl : FdArray) (i inodeNum : Nat) (ops : FileOps) : FdArray :=
  Function.update tbl i
    { tbl i with inodeNum := inodeNum, filePos := 0, flags := 1, fileOperations := some ops }

/-- `open`. -/
def openFd (img : Image) (tbl : FdArray) (filename : Bytes) : Int × FdArray :=
  match tbl.firstClosed with
  | none => (-1, tbl)
  | some i =>
      match img.readDentryByName filename with
      | none => (-1, tbl)
      | some dentry =>
          match dentry.fileType with
          | 0 => (i, tbl.setOpen i 0 .rtc)
          | 1 => (i, tbl.setOpen i 0 .directory)
          | 2 => (i, tbl.setOpen i dentry.inodeNum .file)
          | _ => (0, tbl)

/-- `close`. -/
def close (tbl : FdArray) (fd : Int) : Int × FdArray :=
  if fd < 2 ∨ fd ≥ fdArraySize then (-1, tbl)
  else if (tbl fd.toNat).flags = 0 then (-1, tbl)
  else
    let ret := match (tbl fd.toNat).fileOperations with
      | none => 0
      | some ops => if driverClose fd ops ≠ 0 then -1 else 0
    (ret, Function.update tbl fd.toNat { tbl fd.toNat with flags := 0 })

/-! ## What each call does to the table -/

theorem read_outOfRange {img : Image} {dev : ReadResult} {tbl : FdArray} {fd nbytes : Int}
    (h : OutOfRange fd) : read img dev tbl fd nbytes = (.fail, tbl) := if_pos h

theorem read_closed {img : Image} {dev : ReadResult} {tbl : FdArray} {fd nbytes : Int}
    (h : (tbl fd.toNat).flags = 0) : read img dev tbl fd nbytes = (.fail, tbl) := by
  rw [read, if_pos h]
  split <;> rfl

/-- The drivers leave every descriptor but the one they are called for alone. -/
theorem fileRead_of_ne {img : Image} {tbl : FdArray} {fd nbytes : Int} {i : Nat}
    (h : i ≠ fd.toNat) : (fileRead img tbl fd nbytes).2 i = tbl i := by
  rw [fileRead]
  split
  · rfl
  · dsimp only
    split <;> exact Function.update_of_ne h _ _

theorem dirRead_of_ne {img : Image} {tbl : FdArray} {fd nbytes : Int} {i : Nat}
    (h : i ≠ fd.toNat) : (dirRead img tbl fd nbytes).2 i = tbl i := by
  rw [dirRead]
  split
  · rfl
  · dsimp only
    split
    · rfl
    · exact Function.update_of_ne h _ _

/-- **Reading one descriptor moves no other.** -/
theorem read_of_ne {img : Image} {dev : ReadResult} {tbl : FdArray} {fd nbytes : Int} {i : Nat}
    (h : i ≠ fd.toNat) : (read img dev tbl fd nbytes).2 i = tbl i := by
  rw [read]
  split
  · rfl
  · split
    · rfl
    · split
      · rename_i ops _
        cases ops with
        | terminalInput => rfl
        | terminalOutput => rfl
        | rtc => rfl
        | directory => exact dirRead_of_ne h
        | file => exact fileRead_of_ne h
      · split
        · exact fileRead_of_ne h
        · rfl

/-- Reading changes no more than the place in the file. -/
def SameButPos (s s' : FdStruct) : Prop :=
  s'.fileOperations = s.fileOperations ∧ s'.inodeNum = s.inodeNum ∧ s'.flags = s.flags

theorem SameButPos.update {tbl : FdArray} {i j : Nat} (pos : Nat) :
    SameButPos (tbl i) (Function.update tbl j { tbl j with filePos := pos } i) := by
  by_cases h : i = j
  · subst h
    rw [Function.update_self]
    exact ⟨rfl, rfl, rfl⟩
  · rw [Function.update_of_ne h]
    exact ⟨rfl, rfl, rfl⟩

theorem fileRead_sameButPos {img : Image} {tbl : FdArray} {fd nbytes : Int} (i : Nat) :
    SameButPos (tbl i) ((fileRead img tbl fd nbytes).2 i) := by
  rw [fileRead]
  split
  · exact ⟨rfl, rfl, rfl⟩
  · dsimp only
    split <;> exact SameButPos.update _

theorem read_sameButPos {img : Image} {dev : ReadResult} {tbl : FdArray} {fd nbytes : Int}
    (i : Nat) : SameButPos (tbl i) ((read img dev tbl fd nbytes).2 i) := by
  rw [read]
  split
  · exact ⟨rfl, rfl, rfl⟩
  · split
    · exact ⟨rfl, rfl, rfl⟩
    · split
      · rename_i ops _
        cases ops with
        | terminalInput => exact ⟨rfl, rfl, rfl⟩
        | terminalOutput => exact ⟨rfl, rfl, rfl⟩
        | rtc => exact ⟨rfl, rfl, rfl⟩
        | directory =>
            simp only [driverRead, dirRead]
            split
            · exact ⟨rfl, rfl, rfl⟩
            · split
              · exact ⟨rfl, rfl, rfl⟩
              · exact SameButPos.update _
        | file => exact fileRead_sameButPos i
      · split
        · exact fileRead_sameButPos i
        · exact ⟨rfl, rfl, rfl⟩

/-- The descriptor that `open` takes is not in use, and it is the lowest such one. -/
theorem firstClosed_eq_some {tbl : FdArray} {i : Nat} :
    tbl.firstClosed = some i ↔
      2 ≤ i ∧ i < fdArraySize ∧ (tbl i).flags = 0 ∧ ∀ j, 2 ≤ j → j < i → (tbl j).flags ≠ 0 := by
  rw [firstClosed, List.find?_range'_eq_some]
  simp only [beq_iff_eq, List.mem_range'_1, fdArraySize, Bool.not_eq_true', beq_eq_false_iff_ne]
  constructor
  · rintro ⟨hf, ⟨h₁, h₂⟩, hlow⟩
    exact ⟨h₁, by omega, hf, hlow⟩
  · rintro ⟨h₁, h₂, hf, hlow⟩
    exact ⟨hf, ⟨h₁, by omega⟩, hlow⟩

/-- An `open` that returns a descriptor has found one that was closed. -/
theorem exists_firstClosed {img : Image} {tbl tbl' : FdArray} {filename : Bytes} {i : Nat}
    (h : openFd img tbl filename = ((i : Int), tbl')) : ∃ j, tbl.firstClosed = some j := by
  rw [openFd] at h
  cases hf : tbl.firstClosed with
  | none =>
      rw [hf] at h
      have hneg : (-1 : Int) = i := congrArg Prod.fst h
      omega
  | some j => exact ⟨j, rfl⟩

end FdArray

end Illinix
