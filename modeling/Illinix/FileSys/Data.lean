import Illinix.Base.Store
import Illinix.FileSys.Image

/-!
# Reading data

`read_data` goes byte by byte: it works out the block of the byte through the inode, and stores
the byte in the caller's buffer.  `readDataWhile` is that loop, and an `Iteration` is what one pass
of it uses and stores.

The loop takes what it finds in the image as it is.  On an inode of the format it delivers the slice
of the file that was asked for and leaves the rest of the buffer alone: `read_data_slice`.  On
an arbitrary image it may go anywhere, since the only check is the one on the inode number, and
that lets one number too many through, like the one on the directory index:
`accessors_inside_iff`.
-/

namespace Illinix

open Base

/-- One pass of the loop of `read_data`: the slot of `data_block_nums`, the block number found
there, the index into `buf`, and the byte. -/
structure Iteration where
  slot : Nat
  block : Nat
  index : Nat
  byte : UInt8

/-- A counter returned as an `int32_t`. -/
def toInt32 (i : Nat) : Int := (i : Int).bmod (2 ^ 32)

theorem toInt32_of_lt {i : Nat} (h : i < 2 ^ 31) : toInt32 i = i := by
  have hpos : (0 : Int) ≤ i := Int.natCast_nonneg i
  exact Int.bmod_eq_of_le (by omega) (by omega)

namespace Image

variable (img : Image)

/-- The `while` loop of `read_data`, and `i` after it.  There are at most `length` passes. -/
def readDataWhile (inode length : Nat) : Nat → Nat → Nat → List Iteration × Nat
  | 0, _, i => ([], i)
  | fuel + 1, offset, i =>
      if offset < img.inodeLength inode ∧ i < length then
        let slot := offset / dataBlockSize
        let block := img.dataBlockNum inode slot
        let rest := readDataWhile inode length fuel ((offset + 1) % 2 ^ 32) (i + 1)
        (⟨slot, block, i, img.dataByte block (offset % dataBlockSize)⟩ :: rest.1, rest.2)
      else ([], i)

/-- `read_data(inode, offset, buf, length)`: its result, and the buffer after it. -/
def readDataInto (buf : Bytes) (inode offset length : Nat) : Int × Bytes :=
  if inode > img.numInodes then (-1, buf)
  else
    let run := img.readDataWhile inode length length offset 0
    (toInt32 run.2, applyLog buf (run.1.map fun it ↦ (it.index, it.byte)))

variable {img}

/-! ## The slice that is read -/

theorem word_lt (a : Nat) : img.word a < 2 ^ 32 := by
  have h₀ := (img.load a).toNat_lt
  have h₁ := (img.load (a + 1)).toNat_lt
  have h₂ := (img.load (a + 2)).toNat_lt
  have h₃ := (img.load (a + 3)).toNat_lt
  rw [word]
  omega

/-- The offset stays below the length of the file, so it does not wrap. -/
theorem succ_mod_of_lt {inode offset : Nat} (h : offset < img.inodeLength inode) :
    (offset + 1) % 2 ^ 32 = offset + 1 := by
  have hlt : img.inodeLength inode < 2 ^ 32 := word_lt _
  exact Nat.mod_eq_of_lt (by omega)

/-- **The loop is the one of `readData`**, with the indices it uses. -/
theorem readDataWhile_eq (inode : Nat) {length : Nat} (fuel offset i : Nat) (h : i + fuel = length) :
    ((img.readDataWhile inode length fuel offset i).1.map fun it ↦ (it.index, it.byte)) =
        logAt i (img.readDataLoop inode fuel offset) ∧
      (img.readDataWhile inode length fuel offset i).2 =
        i + (img.readDataLoop inode fuel offset).length := by
  induction fuel generalizing offset i with
  | zero => exact ⟨rfl, rfl⟩
  | succ fuel ih =>
      rw [readDataWhile, readDataLoop]
      by_cases ho : offset < img.inodeLength inode
      · obtain ⟨hlog, hcount⟩ := ih (offset + 1) (i + 1) (by omega)
        rw [if_pos ⟨ho, by omega⟩, if_pos ho, succ_mod_of_lt ho]
        dsimp only
        rw [List.map_cons, hlog, hcount, List.length_cons, logAt]
        exact ⟨rfl, by omega⟩
      · rw [if_neg fun hc ↦ ho hc.1, if_neg ho]
        exact ⟨rfl, rfl⟩

theorem readDataInto_eq {inode : Nat} (hinode : inode ≤ img.numInodes) (buf : Bytes)
    (offset length : Nat) :
    img.readDataInto buf inode offset length =
      (toInt32 (img.readDataLoop inode length offset).length,
        fun j ↦ (img.readDataLoop inode length offset).getD j (buf j)) := by
  obtain ⟨hlog, hcount⟩ := img.readDataWhile_eq inode length offset 0 (Nat.zero_add length)
  rw [readDataInto, if_neg (Nat.not_lt.mpr hinode)]
  dsimp only
  rw [hlog, hcount, Nat.zero_add]
  congr 1
  funext j
  exact applyLog_logAt_zero buf _ j

theorem readDataLoop_getElem? {inode : Nat} (remaining offset : Nat) {j : Nat}
    (hj : j < (img.readDataLoop inode remaining offset).length) :
    (img.readDataLoop inode remaining offset)[j]? = some (img.dataByte
      (img.dataBlockNum inode ((offset + j) / dataBlockSize)) ((offset + j) % dataBlockSize)) := by
  induction remaining generalizing offset j with
  | zero => exact absurd hj (Nat.not_lt_zero j)
  | succ remaining ih =>
      rw [readDataLoop] at hj ⊢
      split at hj
      · rename_i ho
        rw [if_pos ho]
        cases j with
        | zero => rfl
        | succ j =>
            rw [List.getElem?_cons_succ, ih (offset + 1) (Nat.lt_of_succ_lt_succ hj),
              Nat.add_assoc, Nat.add_comm 1 j]
      · exact absurd hj (Nat.not_lt_zero j)

/-- **`read_data` returns the right slice of the file**, and leaves the rest of the buffer as it
was. -/
theorem read_data_slice (img : Image) (inode offset n : Nat) (buf : Bytes)
    (hinode : inode < img.numInodes)
    (hlength : img.inodeLength inode ≤ numDataBlocks * dataBlockSize) (hn : n < 2 ^ 31) :
    let r := if offset < img.inodeLength inode then min n (img.inodeLength inode - offset) else 0
    (img.readDataInto buf inode offset n).1 = r ∧
      (∀ j, j < r → (img.dataBlocks inode)[offset + j]? =
        some ((img.readDataInto buf inode offset n).2 j)) ∧
      ∀ j, r ≤ j → (img.readDataInto buf inode offset n).2 j = buf j := by
  intro r
  have hr : (img.readDataLoop inode n offset).length = r := by
    rw [length_readDataLoop]
    show _ = if offset < img.inodeLength inode then min n (img.inodeLength inode - offset) else 0
    split <;> omega
  clear_value r
  rw [readDataInto_eq hinode.le, hr]
  refine ⟨?_, fun j hj ↦ ?_, fun j hj ↦ ?_⟩
  · have hle : r ≤ n := by rw [← hr, length_readDataLoop]; exact Nat.min_le_left _ _
    have hlt : r < 2 ^ 31 := Nat.lt_of_le_of_lt hle hn
    dsimp only
    rw [toInt32_of_lt hlt]
  · have hin : offset + j < numDataBlocks * dataBlockSize := by
      rw [← hr, length_readDataLoop] at hj
      omega
    rw [dataBlocks_getElem? hin]
    dsimp only
    rw [List.getD_eq_getElem?_getD, readDataLoop_getElem? n offset (hr ▸ hj), Option.getD_some]
  · dsimp only
    rw [List.getD_eq_getElem?_getD, List.getElem?_eq_none (by rwa [hr]), Option.getD_none]

/-- The last 16 bytes of the file of the small image, asked for with a size of 100. -/
theorem read_data_slice_tail :
    (tinyImage.readDataInto (fun _ ↦ 0xff) 0 24 100).1 = 16 ∧
      (tinyImage.readDataInto (fun _ ↦ 0xff) 0 24 100).2 16 = 0xff := by
  obtain ⟨hret, -, hrest⟩ := read_data_slice tinyImage 0 24 100 (fun _ ↦ 0xff) (by decide)
    (by decide) (by decide)
  exact ⟨hret, hrest 16 (by decide)⟩

end Image

/-! ## What the accessors use of the image -/

/-- A place of the image that an accessor uses. -/
inductive ImageUse
  | /-- A slot of `directories`. -/
    dentry (slot : Nat)
  | /-- An inode, by its number. -/
    inode (number : Nat)
  | /-- A slot of `data_block_nums`. -/
    blockSlot (slot : Nat)
  | /-- A data block, by its number. -/
    block (number : Nat)
deriving DecidableEq, Repr

namespace Image

variable (img : Image)

/-- What the image has: 63 slots in the directory and 1023 in an inode, `num_inodes` inodes and
`num_db` data blocks. -/
def Inside : ImageUse → Prop
  | .dentry slot => slot < numDirEntries
  | .inode number => number < img.numInodes
  | .blockSlot slot => slot < numDataBlocks
  | .block number => number < img.numDb

/-- What `read_dentry_by_index` uses; nothing if it returns `-1`. -/
def readDentryByIndexUses (index : Nat) : List ImageUse :=
  if index > numDirEntries then [] else [.dentry index]

/-- What `read_data` uses; nothing if it returns `-1`.  The length of the inode is read even if no
byte is wanted. -/
def readDataUses (inode offset length : Nat) : List ImageUse :=
  if inode > img.numInodes then []
  else
    .inode inode :: (img.readDataWhile inode length length offset 0).1.flatMap fun it ↦
      [.blockSlot it.slot, .block it.block]

variable {img}

/-- The places that the loop comes to are those of the bytes that it reads. -/
theorem forall_readDataWhile (inode : Nat) {length : Nat} {P : Nat → Nat → Prop} (fuel offset i : Nat)
    (h : i + fuel = length) :
    (∀ it ∈ (img.readDataWhile inode length fuel offset i).1, P it.slot it.block) ↔
      ∀ p, offset ≤ p → p < offset + fuel → p < img.inodeLength inode →
        P (p / dataBlockSize) (img.dataBlockNum inode (p / dataBlockSize)) := by
  induction fuel generalizing offset i with
  | zero =>
      refine iff_of_true (fun it hit ↦ absurd hit List.not_mem_nil) fun p hle hlt ↦ ?_
      omega
  | succ fuel ih =>
      rw [readDataWhile]
      by_cases ho : offset < img.inodeLength inode
      · rw [if_pos ⟨ho, by omega⟩, succ_mod_of_lt ho]
        dsimp only
        rw [List.forall_mem_cons, ih (offset + 1) (i + 1) (by omega)]
        constructor
        · rintro ⟨hfirst, hrest⟩ p hle hlt hp
          rcases Nat.eq_or_lt_of_le hle with rfl | hgt
          · exact hfirst
          · exact hrest p hgt (by omega) hp
        · intro hall
          exact ⟨hall offset (Nat.le_refl _) (by omega) ho,
            fun p hle hlt hp ↦ hall p (by omega) (by omega) hp⟩
      · rw [if_neg fun hc ↦ ho hc.1]
        refine iff_of_true (fun it hit ↦ absurd hit List.not_mem_nil) fun p hle _ hp ↦ ?_
        omega

theorem readDentryByIndex_inside_iff {index : Nat} :
    (∀ u ∈ readDentryByIndexUses index, img.Inside u) ↔ index ≠ numDirEntries := by
  rw [readDentryByIndexUses]
  split
  · rename_i hgt
    exact iff_of_true (fun u hu ↦ absurd hu List.not_mem_nil) (Nat.ne_of_gt hgt)
  · rename_i hle
    rw [List.forall_mem_singleton, Inside]
    omega

/-- **When the accessors stay inside the image**, whatever it holds.  `read_dentry_by_index` does
except for index 63.  `read_data` does if and only if the inode number is not `num_inodes`, and, if
it is below, every byte from the offset on that is asked for and inside the length has its block
number in the inode, and that number is one of a data block. -/
theorem accessors_inside_iff (img : Image) (index inode offset length : Nat) :
    ((∀ u ∈ readDentryByIndexUses index, img.Inside u) ↔ index ≠ numDirEntries) ∧
      ((∀ u ∈ img.readDataUses inode offset length, img.Inside u) ↔
        inode ≠ img.numInodes ∧ (inode < img.numInodes →
          ∀ p, offset ≤ p → p < offset + length → p < img.inodeLength inode →
            p / dataBlockSize < numDataBlocks ∧
              img.dataBlockNum inode (p / dataBlockSize) < img.numDb)) := by
  refine ⟨readDentryByIndex_inside_iff, ?_⟩
  rw [readDataUses]
  split
  · rename_i hgt
    refine iff_of_true (fun u hu ↦ absurd hu List.not_mem_nil) ⟨Nat.ne_of_gt hgt, fun hlt ↦ ?_⟩
    omega
  · rename_i hle
    have hloop := img.forall_readDataWhile inode
      (P := fun slot block ↦ slot < numDataBlocks ∧ block < img.numDb) length offset 0
      (Nat.zero_add length)
    have huses : (∀ u ∈ (img.readDataWhile inode length length offset 0).1.flatMap fun it ↦
          [.blockSlot it.slot, .block it.block], img.Inside u) ↔
        ∀ it ∈ (img.readDataWhile inode length length offset 0).1,
          it.slot < numDataBlocks ∧ it.block < img.numDb := by
      simp only [List.forall_mem_flatMap, List.forall_mem_cons, List.not_mem_nil, false_imp_iff,
        implies_true, and_true, Inside]
    rw [List.forall_mem_cons, huses, hloop, Inside]
    constructor
    · rintro ⟨hlt, hall⟩
      exact ⟨hlt.ne, fun _ ↦ hall⟩
    · rintro ⟨hne, hall⟩
      have hlt : inode < img.numInodes := by omega
      exact ⟨hlt, hall hlt⟩

/-- Index 63 is the slot behind the directory, and inode number 1 of the small image, which has
one inode, is data block 0. -/
theorem accessors_not_inside :
    ¬ (∀ u ∈ readDentryByIndexUses 63, tinyImage.Inside u) ∧
      ¬ ∀ u ∈ tinyImage.readDataUses 1 0 4, tinyImage.Inside u := by
  refine ⟨fun h ↦ ?_, fun h ↦ ?_⟩
  · exact absurd (h (.dentry 63) (by decide)) (Nat.lt_irrefl _)
  · have hinode : tinyImage.Inside (.inode 1) := h _ (by decide)
    have hlt : 1 < tinyImage.numInodes := hinode
    exact absurd hlt (by decide)

end Image

end Illinix
