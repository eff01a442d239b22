import Illinix.Base.Blocks
import Illinix.Lib.CString

/-!
# The file-system image

The image is the memory from `boot_block` on (`filesys.h`): one boot block with the
three counts and the directory entries, then one 4 KB block for each inode, then
the data blocks.  `Image` is that memory, whatever it holds; addresses are offsets
from `boot_block` and wrap at `2 ^ 32` like the pointers they stand for.

`readDentryByIndex`, `readDentryByName` and `readData` are the three accessors of
`filesys.c`.  `contents` is what an inode stands for, and `readData_eq` says that
`read_data` returns a slice of it.
-/

namespace Illinix

/-! ## Layout -/

def fileNameSize : Nat := 32
def numDirEntries : Nat := 63
def numDataBlocks : Nat := 1023
def dataBlockSize : Nat := 4096

/-- Memory from `boot_block` on. -/
structure Image where
  byte : Nat → UInt8

/-- A `dentry_t` as the accessors fill it in. -/
structure Dentry where
  fileName : List UInt8
  fileType : Nat
  inodeNum : Nat
deriving DecidableEq, Repr

namespace Image

variable (img : Image)

/-- The byte at an offset from `boot_block`. -/
def load (a : Nat) : UInt8 := img.byte (a % 2 ^ 32)

/-- The `uint32_t` at an offset, least significant byte first. -/
def word (a : Nat) : Nat :=
  (img.load a).toNat + 2 ^ 8 * (img.load (a + 1)).toNat + 2 ^ 16 * (img.load (a + 2)).toNat +
    2 ^ 24 * (img.load (a + 3)).toNat

def numDir : Nat := img.word 0
def numInodes : Nat := img.word 4
def numDb : Nat := img.word 8

/-- The offset of `directories[i]`. -/
def dentryAddr (i : Nat) : Nat := 64 + 64 * i

/-- The bytes from `directories[i].file_name` on. -/
def fileName (i : Nat) : Bytes := fun j ↦ img.load (dentryAddr i + j)
def fileType (i : Nat) : Nat := img.word (dentryAddr i + 32)
def inodeNum (i : Nat) : Nat := img.word (dentryAddr i + 36)

/-- The offset of an inode; inode 0 follows the boot block. -/
def inodeAddr (inode : Nat) : Nat := (inode + 1) * dataBlockSize

/-- `inode_t.length`. -/
def inodeLength (inode : Nat) : Nat := img.word (inodeAddr inode)

/-- `inode_t.data_block_nums[k]`. -/
def dataBlockNum (inode k : Nat) : Nat := img.word (inodeAddr inode + 4 + 4 * k)

/-- Byte `j` of data block `b`; the data blocks follow the inodes. -/
def dataByte (b j : Nat) : UInt8 := img.load ((1 + img.numInodes + b) * dataBlockSize + j)

/-! ## The accessors -/

/-- `read_dentry_by_index`; `none` is the result `-1`, which leaves the caller's
entry alone. -/
def readDentryByIndex (index : Nat) : Option Dentry :=
  if index > numDirEntries then none
  else some
    { fileName := strncpy (img.fileName index) fileNameSize
      fileType := img.fileType index
      inodeNum := img.inodeNum index }

/-- How many bytes `read_dentry_by_name` compares: the length of the longer name,
at most `FILE_NAME_SIZE`. -/
def compareLength (nameLength i : Nat) : Nat :=
  min (max nameLength (strlen (img.fileName i))) fileNameSize

/-- `read_dentry_by_name`. -/
def readDentryByName (fname : Bytes) : Option Dentry :=
  let nameLength := strlen fname
  if nameLength > fileNameSize then none
  else
    ((List.range img.numDir).find? fun i ↦
      strncmp fname (img.fileName i) (img.compareLength nameLength i) == 0).bind
      img.readDentryByIndex

/-- The loop of `read_data`: `remaining` bytes are still wanted. -/
def readDataLoop (inode : Nat) : Nat → Nat → List UInt8
  | 0, _ => []
  | remaining + 1, offset =>
      if offset < img.inodeLength inode then
        img.dataByte (img.dataBlockNum inode (offset / dataBlockSize)) (offset % dataBlockSize) ::
          readDataLoop inode remaining (offset + 1)
      else []

/-- `read_data`: the bytes it stores from `buf[0]` on, `none` for the result `-1`.
Its result is otherwise their number. -/
def readData (inode offset length : Nat) : Option (List UInt8) :=
  if inode > img.numInodes then none else some (img.readDataLoop inode length offset)

/-! ## What the directory and the inodes stand for -/

/-- The name of directory entry `i`. -/
def entryName (i : Nat) : List UInt8 := cstr (img.fileName i) fileNameSize

/-- Data block `b`. -/
def block (b : Nat) : List UInt8 := (List.range dataBlockSize).map (img.dataByte b)

/-- The data blocks of an inode, in its order. -/
def dataBlocks (inode : Nat) : List UInt8 :=
  (List.range numDataBlocks).flatMap fun k ↦ img.block (img.dataBlockNum inode k)

/-- The contents of a file: its data blocks in the order of the inode, cut at its
length. -/
def contents (inode : Nat) : List UInt8 :=
  ((List.range numDataBlocks).flatMap fun k ↦ img.block (img.dataBlockNum inode k)).take
    (img.inodeLength inode)

variable {img}

/-! ## Lookup -/

/-- A listed name is found at its first entry, as far as the index check lets it. -/
theorem readDentryByName_eq {fname : Bytes} (hlen : strlen fname ≤ fileNameSize) :
    img.readDentryByName fname =
      ((List.range img.numDir).find? fun i ↦ cstr fname fileNameSize == img.entryName i).bind
        img.readDentryByIndex := by
  have hmatch : (fun i ↦ strncmp fname (img.fileName i)
      (img.compareLength (strlen fname) i) == 0) =
      fun i ↦ cstr fname fileNameSize == img.entryName i := by
    funext i
    rw [Bool.eq_iff_iff, beq_iff_eq, beq_iff_eq]
    exact strncmp_eq_zero_iff_cstr hlen (by decide)
  rw [readDentryByName, if_neg (Nat.not_lt.mpr hlen), hmatch]

theorem readDentryByIndex_eq_some {i : Nat} {d : Dentry} :
    img.readDentryByIndex i = some d ↔ i ≤ numDirEntries ∧
      d = ⟨strncpy (img.fileName i) fileNameSize, img.fileType i, img.inodeNum i⟩ := by
  rw [readDentryByIndex]
  split
  · rename_i h
    exact ⟨fun hc ↦ (by cases hc), fun hc ↦ absurd hc.1 (Nat.not_le.mpr h)⟩
  · rename_i h
    rw [Option.some.injEq]
    exact ⟨fun hd ↦ ⟨Nat.not_lt.mp h, hd.symm⟩, fun hd ↦ hd.2.symm⟩

/-- What `read_dentry_by_name` returns is a directory entry of that name. -/
theorem exists_entry_of_readDentryByName {fname : Bytes} {d : Dentry}
    (h : img.readDentryByName fname = some d) :
    strlen fname ≤ fileNameSize ∧
      ∃ i, i < img.numDir ∧ i ≤ numDirEntries ∧ img.entryName i = cstr fname fileNameSize ∧
        d.fileType = img.fileType i ∧ d.inodeNum = img.inodeNum i := by
  by_cases hlen : strlen fname ≤ fileNameSize
  · rw [readDentryByName_eq hlen, Option.bind_eq_some_iff] at h
    obtain ⟨i, hi, hd⟩ := h
    obtain ⟨hle, rfl⟩ := readDentryByIndex_eq_some.mp hd
    have hname := List.find?_some hi
    rw [beq_iff_eq] at hname
    exact ⟨hlen, i, List.mem_range.mp (List.mem_of_find?_eq_some hi), hle, hname.symm, rfl, rfl⟩
  · rw [readDentryByName, if_pos (Nat.not_le.mp hlen)] at h
    cases h

/-- The name is that of an entry which the accessors serve. -/
def InDirectory (img : Image) (fname : Bytes) : Prop :=
  strlen fname ≤ fileNameSize ∧
    ∃ i, i < img.numDir ∧ i ≤ numDirEntries ∧ img.entryName i = cstr fname fileNameSize

/-- `read_dentry_by_name` succeeds exactly on the names in the directory. -/
theorem readDentryByName_isSome_iff {fname : Bytes} :
    (img.readDentryByName fname).isSome ↔ img.InDirectory fname := by
  constructor
  · intro h
    obtain ⟨d, hd⟩ := Option.isSome_iff_exists.mp h
    obtain ⟨hlen, i, hi, hle, hname, _, _⟩ := exists_entry_of_readDentryByName hd
    exact ⟨hlen, i, hi, hle, hname⟩
  · rintro ⟨hlen, i, hi, hle, hname⟩
    rw [readDentryByName_eq hlen]
    -- the search stops no later than at `i`, so below the bound that `i` meets
    obtain ⟨j, hj⟩ : ∃ j, ((List.range img.numDir).find? fun i ↦
        cstr fname fileNameSize == img.entryName i) = some j := by
      rw [← Option.isSome_iff_exists, List.find?_isSome]
      exact ⟨i, List.mem_range.mpr hi, by rw [beq_iff_eq, hname]⟩
    have hji : j ≤ i := by
      by_contra hlt
      have hno := (List.find?_range_eq_some.mp hj).2.2 i (Nat.not_le.mp hlt)
      rw [hname, beq_self_eq_true] at hno
      cases hno
    rw [hj]
    exact Option.isSome_iff_exists.mpr
      ⟨_, readDentryByIndex_eq_some.mpr ⟨Nat.le_trans hji hle, rfl⟩⟩

/-! ## Reading -/

/-- An inode whose block numbers are all zero. -/
theorem dataBlockNum_eq_zero {inode : Nat}
    (hzero : ∀ a, inodeAddr inode + 4 ≤ a → a < inodeAddr inode + dataBlockSize → img.load a = 0)
    {k : Nat} (hk : k < numDataBlocks) : img.dataBlockNum inode k = 0 := by
  have hload : ∀ r, r < 4 → img.load (inodeAddr inode + 4 + 4 * k + r) = 0 := by
    intro r hr
    simp only [numDataBlocks] at hk
    simp only [dataBlockSize] at hzero
    exact hzero _ (by omega) (by omega)
  have h₀ : img.load (inodeAddr inode + 4 + 4 * k) = 0 := by
    have h := hload 0 (by decide)
    rwa [Nat.add_zero] at h
  rw [dataBlockNum, word, h₀, hload 1 (by decide), hload 2 (by decide), hload 3 (by decide)]
  rfl

theorem length_block (b : Nat) : (img.block b).length = dataBlockSize := by
  rw [block, List.length_map, List.length_range]

theorem length_dataBlocks (inode : Nat) :
    (img.dataBlocks inode).length = numDataBlocks * dataBlockSize := by
  rw [dataBlocks, Base.length_flatMap_const fun k ↦ length_block _, List.length_range]

/-- The byte that `read_data` computes for an offset is the byte of the blocks there. -/
theorem dataBlocks_getElem? {inode offset : Nat} (h : offset < numDataBlocks * dataBlockSize) :
    (img.dataBlocks inode)[offset]? = some (img.dataByte
      (img.dataBlockNum inode (offset / dataBlockSize)) (offset % dataBlockSize)) := by
  have hdiv : offset / dataBlockSize < numDataBlocks :=
    Nat.div_lt_of_lt_mul (by rwa [Nat.mul_comm])
  have hmod : offset % dataBlockSize < dataBlockSize := Nat.mod_lt _ (by decide)
  rw [dataBlocks, Base.getElem?_flatMap_const (by decide) (fun k ↦ length_block _),
    List.getElem?_range hdiv, Option.bind_some, block, List.getElem?_map,
    List.getElem?_range hmod, Option.map_some]

theorem contents_eq_take (inode : Nat) :
    img.contents inode = (img.dataBlocks inode).take (img.inodeLength inode) := rfl

theorem length_contents_eq_min (inode : Nat) :
    (img.contents inode).length = min (img.inodeLength inode) (numDataBlocks * dataBlockSize) := by
  rw [contents_eq_take, List.length_take, length_dataBlocks]

theorem length_contents {inode : Nat}
    (h : img.inodeLength inode ≤ numDataBlocks * dataBlockSize) :
    (img.contents inode).length = img.inodeLength inode := by
  rw [length_contents_eq_min]
  exact Nat.min_eq_left h

theorem contents_getElem? {inode offset : Nat}
    (h : img.inodeLength inode ≤ numDataBlocks * dataBlockSize)
    (ho : offset < img.inodeLength inode) :
    (img.contents inode)[offset]? = some (img.dataByte
      (img.dataBlockNum inode (offset / dataBlockSize)) (offset % dataBlockSize)) := by
  rw [contents_eq_take, List.getElem?_take_of_lt ho, dataBlocks_getElem? (by omega)]

theorem readDataLoop_eq {inode : Nat}
    (h : img.inodeLength inode ≤ numDataBlocks * dataBlockSize) (remaining offset : Nat) :
    img.readDataLoop inode remaining offset =
      ((img.contents inode).drop offset).take remaining := by
  induction remaining generalizing offset with
  | zero => rfl
  | succ remaining ih =>
      rw [readDataLoop]
      split
      · rename_i ho
        rw [Base.take_drop_succ (contents_getElem? h ho), ih]
      · rename_i ho
        rw [List.drop_eq_nil_of_le (by rw [length_contents h]; omega), List.take_nil]

/-- **`read_data` returns a slice of the file.** -/
theorem readData_eq {inode : Nat} (hi : inode ≤ img.numInodes)
    (h : img.inodeLength inode ≤ numDataBlocks * dataBlockSize) (offset length : Nat) :
    img.readData inode offset length =
      some (((img.contents inode).drop offset).take length) := by
  rw [readData, if_neg (Nat.not_lt.mpr hi), readDataLoop_eq h]

/-- How many bytes `read_data` returns does not depend on the blocks. -/
theorem length_readDataLoop (inode remaining offset : Nat) :
    (img.readDataLoop inode remaining offset).length =
      min remaining (img.inodeLength inode - offset) := by
  induction remaining generalizing offset with
  | zero => rw [readDataLoop, List.length_nil, Nat.zero_min]
  | succ remaining ih =>
      rw [readDataLoop]
      split
      · rw [List.length_cons, ih]
        omega
      · rw [List.length_nil]
        omega

/-- A read of its length delivers the whole file. -/
theorem length_readDataLoop_whole (inode : Nat) :
    (img.readDataLoop inode (img.inodeLength inode) 0).length = img.inodeLength inode := by
  rw [length_readDataLoop, Nat.sub_zero, Nat.min_self]

/-- A file is read on from where one read ended. -/
theorem readDataLoop_piece (inode m offset : Nat) :
    img.readDataLoop inode (img.inodeLength inode - offset) offset =
      img.readDataLoop inode m offset ++
        img.readDataLoop inode
          (img.inodeLength inode - (offset + (img.readDataLoop inode m offset).length))
          (offset + (img.readDataLoop inode m offset).length) := by
  induction m generalizing offset with
  | zero => rfl
  | succ m ih =>
      rw [readDataLoop]
      split
      · rename_i ho
        have hsub : img.inodeLength inode - offset = img.inodeLength inode - (offset + 1) + 1 := by
          omega
        rw [hsub, readDataLoop, if_pos ho, ih, List.length_cons, List.cons_append, Nat.add_assoc,
          Nat.add_comm 1]
      · rfl

end Image

/-! ## A small image -/

/-- One directory entry, `shell`, for a 40-byte file in data block 0: the magic
bytes, and an entry point of `0x08048000` in bytes 24..27. -/
def tinyImage : Image where
  byte a :=
    if a = 0 ∨ a = 4 ∨ a = 8 then 1
    else if 64 ≤ a ∧ a < 69 then [0x73, 0x68, 0x65, 0x6c, 0x6c].getD (a - 64) 0
    else if a = 96 then 2
    else if a = 4096 then 40
    else if 8192 ≤ a ∧ a < 8196 then [0x7f, 0x45, 0x4c, 0x46].getD (a - 8192) 0
    else if a = 8217 then 0x80
    else if a = 8218 then 0x04
    else if a = 8219 then 0x08
    else 0

/-- The name of its file. -/
def shellName : Bytes := Bytes.ofList [0x73, 0x68, 0x65, 0x6c, 0x6c]

theorem tinyImage_fileType_le : ∀ i, i < tinyImage.numDir → tinyImage.fileType i ≤ 2 := by decide

end Illinix
