import Illinix.Files.Descriptor
import Illinix.Terminal.Driver

/-!
# The caller's buffer

A read of `nbytes` bytes may store into the first `nbytes` bytes of the caller's buffer, and
into none if `nbytes` is not positive.  Three drivers store, and each goes too far in its own
way: `terminal_read` puts a NUL behind what it copies, `dir_read` fills `FILE_NAME_SIZE` bytes
whatever the size, and `file_read` passes its signed size on as an unsigned one.
`read_within_iff` says for each driver when a read stays inside.
-/

namespace Illinix

/-- What is stored, and what is returned, is at most the size. -/
structure ReadResult.Within (r : ReadResult) (nbytes : Int) : Prop where
  stored : (r.stored.length : Int) ≤ max nbytes 0
  ret : r.ret ≤ max nbytes 0

/-- When a read through a driver stays inside the buffer: the terminal for which it is called
has nothing pending, or the size leaves room for a NUL; a directory entry has room, or there
are no more; the size is not negative, or there is nothing to read. -/
def ReadFits (img : Image) (tty : Tty) (target : Nat) (slot : FdStruct) (nbytes : Int) :
    FileOps → Prop
  | .terminalInput => tty.tail target = -1 ∨ (1 ≤ nbytes ∧ tty.tail target + 2 ≤ nbytes)
  | .terminalOutput => True
  | .rtc => True
  | .directory => fileNameSize ≤ nbytes ∨ numDirEntries < slot.filePos
  | .file => 0 ≤ nbytes ∨ img.numInodes < slot.inodeNum ∨
      img.inodeLength slot.inodeNum ≤ slot.filePos

theorem ReadResult.within_of_nil {ret nbytes : Int} (h : ret ≤ 0) :
    ReadResult.Within ⟨ret, []⟩ nbytes :=
  ⟨le_max_right _ _, h.trans (le_max_right _ _)⟩

/-- `terminal_read` needs room for a NUL. -/
theorem Tty.terminalRead_within_iff {s : Tty} {t : Nat} {n : Int} :
    (terminalRead t n s).1.Within n ↔ s.tail t = -1 ∨ (1 ≤ n ∧ s.tail t + 2 ≤ n) := by
  by_cases hempty : s.tail t = -1
  · rw [terminalRead_empty hempty]
    exact ⟨fun _ ↦ Or.inl hempty, fun _ ↦ ReadResult.within_of_nil (le_refl 0)⟩
  · have hlen : ((terminalRead t n s).1.stored.length : Int) = max (s.actualCopy t n) 0 + 1 := by
      rw [terminalRead_eq hempty]
      simp only [List.length_append, Base.length_cells, List.length_singleton]
      omega
    have hret : (terminalRead t n s).1.ret = s.actualCopy t n := by
      rw [terminalRead_eq hempty]
    have hcopy : s.actualCopy t n = min n (s.tail t + 1) := by
      rw [actualCopy]
      split <;> omega
    constructor
    · rintro ⟨hstored, -⟩
      rw [hlen, hcopy] at hstored
      omega
    · intro h
      have h := h.resolve_left hempty
      constructor
      · rw [hlen, hcopy]
        omega
      · rw [hret, hcopy]
        omega

namespace FdArray

variable {img : Image} {tbl : FdArray} {fd n : Int}

/-- `dir_read` needs room for a whole entry. -/
theorem dirRead_within_iff (hfd : ¬ OutOfRange fd) :
    (dirRead img tbl fd n).1.Within n ↔
      fileNameSize ≤ n ∨ numDirEntries < (tbl fd.toNat).filePos := by
  rw [dirRead, if_neg hfd]
  by_cases hlast : (tbl fd.toNat).filePos > numDirEntries
  · have hnone : img.readDentryByIndex (tbl fd.toNat).filePos = none := if_pos hlast
    simp only [hnone]
    exact iff_of_true (ReadResult.within_of_nil (by decide)) (Or.inr hlast)
  · obtain ⟨d, hd⟩ : ∃ d, img.readDentryByIndex (tbl fd.toNat).filePos = some d :=
      ⟨_, if_neg hlast⟩
    have hlen : (dirReadBytes d.fileName n).length = fileNameSize := by
      rw [dirReadBytes, List.length_map, List.length_range]
    have hcount := (dirReadBytes d.fileName n).countP_le_length (p := (· ≠ 0))
    simp only [hd]
    constructor
    · rintro ⟨hstored, -⟩
      simp only [hlen, fileNameSize] at hstored ⊢
      omega
    · intro h
      have h := h.resolve_right hlast
      rw [hlen] at hcount
      exact ⟨by simp only [hlen]; omega, by simp only; omega⟩

/-- `file_read` needs a size that is not negative, or nothing to read. -/
theorem fileRead_within_iff (hfd : ¬ OutOfRange fd) (hlow : -2 ^ 31 ≤ n) (hhigh : n < 2 ^ 31) :
    (fileRead img tbl fd n).1.Within n ↔
      0 ≤ n ∨ img.numInodes < (tbl fd.toNat).inodeNum ∨
        img.inodeLength (tbl fd.toNat).inodeNum ≤ (tbl fd.toNat).filePos := by
  rw [fileRead, if_neg hfd]
  by_cases hinode : (tbl fd.toNat).inodeNum > img.numInodes
  · have hnone : img.readData (tbl fd.toNat).inodeNum (tbl fd.toNat).filePos (toUInt32 n) = none :=
      if_pos hinode
    simp only [hnone]
    exact iff_of_true (ReadResult.within_of_nil (by decide)) (Or.inr (Or.inl hinode))
  · obtain ⟨bytes, hbytes⟩ : ∃ bytes, img.readData (tbl fd.toNat).inodeNum
        (tbl fd.toNat).filePos (toUInt32 n) = some bytes := ⟨_, if_neg hinode⟩
    have hlen : bytes.length = min (toUInt32 n)
        (img.inodeLength (tbl fd.toNat).inodeNum - (tbl fd.toNat).filePos) := by
      rw [Image.readData, if_neg hinode] at hbytes
      rw [← Option.some.inj hbytes, Image.length_readDataLoop]
    -- a negative size becomes one of at least `2 ^ 31`
    have hsize : (toUInt32 n : Int) = if 0 ≤ n then n else n + 2 ^ 32 := by
      rw [toUInt32]
      split <;> omega
    simp only [hbytes]
    constructor
    · rintro ⟨hstored, -⟩
      simp only [hlen] at hstored
      split at hsize <;> omega
    · intro h
      have hle : (bytes.length : Int) ≤ max n 0 := by
        rw [hlen]
        split at hsize <;> omega
      exact ⟨hle, hle⟩

/-- **When a read stays inside the caller's buffer.**  For every open descriptor, every state of
the terminal it may read, of the directory and of the file, and every size. -/
theorem read_within_iff (img : Image) (tty : Tty) (target : Nat) (tbl : FdArray) (fd : Int)
    (hfd : ¬ OutOfRange fd) (hopen : (tbl fd.toNat).flags ≠ 0) (ops : FileOps)
    (hops : (tbl fd.toNat).fileOperations = some ops) (nbytes : Int) (hlow : -2 ^ 31 ≤ nbytes)
    (hhigh : nbytes < 2 ^ 31) :
    (read img (tty.terminalRead target nbytes).1 tbl fd nbytes).1.Within nbytes ↔
      ReadFits img tty target (tbl fd.toNat) nbytes ops := by
  have hread : read img (Tty.terminalRead target nbytes tty).1 tbl fd nbytes =
      driverRead img (Tty.terminalRead target nbytes tty).1 tbl fd nbytes ops := by
    rw [read, if_neg hfd, if_neg hopen, hops]
  rw [hread]
  cases ops with
  | terminalInput => exact Tty.terminalRead_within_iff
  | terminalOutput => exact iff_of_true (ReadResult.within_of_nil (by decide)) trivial
  | rtc => exact iff_of_true (ReadResult.within_of_nil (le_refl 0)) trivial
  | directory => exact dirRead_within_iff hfd
  | file => exact fileRead_within_iff hfd hlow hhigh

/-- A table with a directory in descriptor 2 and the file of the small image in descriptor 3. -/
def tinyTable : FdArray :=
  ((create fun _ ↦ ⟨none, 0, 0, 0, 0⟩).setOpen 2 0 .directory).setOpen 3 0 .file

/-- A read of a line of one character with a buffer of three bytes. -/
theorem read_within_iff_line :
    (read tinyImage (Tty.terminalRead 0 3 (Tty.boot.terminalOpen.key 0x61)).1 tinyTable 0 3).1.Within
      3 :=
  (read_within_iff tinyImage (Tty.boot.terminalOpen.key 0x61) 0 tinyTable 0 (by decide) (by decide)
    .terminalInput rfl 3 (by decide) (by decide)).mpr (Or.inr (by decide))

/-- The same line with a buffer of one byte, a directory entry with four, and a file with a
size of `-1`: each read goes past the buffer. -/
theorem read_not_within :
    ¬ (read tinyImage (Tty.terminalRead 0 1 (Tty.boot.terminalOpen.key 0x61)).1
        tinyTable 0 1).1.Within 1 ∧
      ¬ (read tinyImage .fail tinyTable 2 4).1.Within 4 ∧
      ¬ (read tinyImage .fail tinyTable 3 (-1)).1.Within (-1) := by
  refine ⟨fun h ↦ ?_, fun h ↦ ?_, fun h ↦ ?_⟩
  · exact absurd (Tty.terminalRead_within_iff.mp h) (by decide)
  · exact absurd ((dirRead_within_iff (by decide)).mp h) (by decide)
  · exact absurd ((fileRead_within_iff (by decide) (by decide) (by decide)).mp h) (by decide)

end FdArray

end Illinix
