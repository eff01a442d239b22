import Illinix.FileSys.Data
import Illinix.Files.Stream
import Illinix.Lib.Memcpy
import Illinix.Process.Step

/-!
# Loading a program, store by store

`load_file` copies a file to `VIRTUAL_ADDR` in pieces of 100 bytes, each by a `read_data` into
`file_data` and a `memcpy` from there.  `loadFileRun` makes these stores through the page tables, so a
store behind the user page is the page fault that it is on the machine.  The pieces come to one
copy of one read of the whole file: `loadFileRun_eq`.

Nothing compares the length of a file with the room in the page.  The format has files up to
`1023 * 4096` bytes, the page has room for `programRoom`, which is less, and the entry behind that of the
user page is never present.  `load_file_whole_iff` and `load_file_in_page_iff` say what follows.
-/

namespace Illinix

open Base

section Load

variable (tr : Nat → Option Nat) (img : Image) (fileData : Bytes)

/-- The loop of `load_file`: its stores, or `none` if it has not ended after `fuel` passes.  A failing
`read_data` leaves `file_data` as it was, and its `-1` is the size of the copy. -/
def loadFileLoop (inode length : Nat) : Nat → Nat → Option (CopyRun UInt8)
  | 0, _ => none
  | fuel + 1, readSofar =>
      if readSofar = length then some .done
      else
        let data := img.readData inode readSofar 100
        let bytesRead := data.elim (2 ^ 32 - 1) List.length
        let copy := memcpyRun tr (stored data fileData) ((virtualAddr + readSofar) % 2 ^ 32) bytesRead
        match copy.fault with
        | some _ => some copy
        | none =>
            (loadFileLoop inode length fuel ((readSofar + bytesRead) % 2 ^ 32)).map copy.andThen

/-- `load_file`.  A pass that does not end the loop copies a byte at least. -/
def loadFileRun (dentry : Dentry) : Option (CopyRun UInt8) :=
  loadFileLoop tr img fileData dentry.inodeNum (img.inodeLength dentry.inodeNum)
    (img.inodeLength dentry.inodeNum + 1) 0

/-- The program is loaded whole: `load_file` returns, the file is in memory from `VIRTUAL_ADDR` on,
and every other byte is as it was. -/
def LoadsWhole (dentry : Dentry) (mem : Nat → UInt8) : Prop :=
  ∃ run, loadFileRun tr img fileData dentry = some run ∧ run.fault = none ∧
    (∀ j, j < img.inodeLength dentry.inodeNum → ∃ a, tr (virtualAddr + j) = some a ∧
      (img.contents dentry.inodeNum)[j]? = some (applyLog mem run.physLog a)) ∧
    ∀ a, (∀ j, j < img.inodeLength dentry.inodeNum → tr (virtualAddr + j) ≠ some a) →
      applyLog mem run.physLog a = mem a

/-- The loop ends, and every address that it stores to is in the page of the program, from
`VIRTUAL_ADDR` on. -/
def LoadsInPage (dentry : Dentry) : Prop :=
  ∃ run, loadFileRun tr img fileData dentry = some run ∧
    ∀ v ∈ run.addresses, 0x08048000 ≤ v ∧ v < 0x08400000

variable {tr img fileData}

/-! ## The pieces are one copy -/

theorem map_stored_self (bytes : List UInt8) (junk : Bytes) :
    (List.range bytes.length).map (stored (some bytes) junk) = bytes := by
  have h := map_range_getD (Nat.le_refl bytes.length) junk
  rw [Nat.sub_self, List.range'_zero, List.map_nil, List.append_nil] at h
  exact h

/-- One pass of the loop. -/
theorem loadFileLoop_succ (hword : WordMapped tr) {inode : Nat} (hi : inode ≤ img.numInodes)
    (fuel : Nat) {readSofar : Nat} (hlt : readSofar < img.inodeLength inode) :
    loadFileLoop tr img fileData inode (img.inodeLength inode) (fuel + 1) readSofar =
      let bytes := img.readDataLoop inode 100 readSofar
      let copy := copyBytes tr (2 ^ 32) ((virtualAddr + readSofar) % 2 ^ 32) bytes
      match copy.fault with
      | some _ => some copy
      | none =>
          (loadFileLoop tr img fileData inode (img.inodeLength inode) fuel
            (readSofar + bytes.length)).map copy.andThen := by
  have hlen : (img.readDataLoop inode 100 readSofar).length =
      min 100 (img.inodeLength inode - readSofar) := Image.length_readDataLoop _ _ _
  have hword_lt : img.inodeLength inode < 2 ^ 32 := Image.word_lt _
  have hnext : (readSofar + (img.readDataLoop inode 100 readSofar).length) % 2 ^ 32 =
      readSofar + (img.readDataLoop inode 100 readSofar).length := Nat.mod_eq_of_lt (by omega)
  rw [loadFileLoop, if_neg hlt.ne, Image.readData, if_neg (Nat.not_lt.mpr hi)]
  dsimp only [Option.elim_some]
  rw [memcpyRun_eq hword (Nat.mod_lt _ (by decide)), map_stored_self, hnext]

theorem loadFileLoop_eq (hword : WordMapped tr) {inode : Nat} (hi : inode ≤ img.numInodes)
    {fuel readSofar : Nat} (hle : readSofar ≤ img.inodeLength inode)
    (hfuel : img.inodeLength inode < fuel + readSofar) :
    loadFileLoop tr img fileData inode (img.inodeLength inode) fuel readSofar =
      some (copyBytes tr (2 ^ 32) ((virtualAddr + readSofar) % 2 ^ 32)
        (img.readDataLoop inode (img.inodeLength inode - readSofar) readSofar)) := by
  induction fuel generalizing readSofar with
  | zero => omega
  | succ fuel ih =>
      rcases Nat.eq_or_lt_of_le hle with hend | hlt
      · rw [loadFileLoop, if_pos hend, hend, Nat.sub_self]
        rfl
      · have hlen : (img.readDataLoop inode 100 readSofar).length =
            min 100 (img.inodeLength inode - readSofar) := Image.length_readDataLoop _ _ _
        rw [loadFileLoop_succ hword hi fuel hlt, img.readDataLoop_piece inode 100 readSofar,
          copyBytes_append]
        dsimp only
        split
        · rename_i v hfault
          rw [CopyRun.andThen_of_fault hfault]
        · rw [ih (by omega) (by omega), Option.map_some, Nat.add_assoc]

/-- **Loading in pieces is one copy of one read of the whole file**, whether it comes to its end or
not. -/
theorem loadFileRun_eq (hword : WordMapped tr) {dentry : Dentry}
    (hi : dentry.inodeNum ≤ img.numInodes) :
    loadFileRun tr img fileData dentry = some (copyBytes tr (2 ^ 32) (virtualAddr % 2 ^ 32)
      (img.readDataLoop dentry.inodeNum (img.inodeLength dentry.inodeNum) 0)) :=
  loadFileLoop_eq hword hi (Nat.zero_le _) (by omega)

theorem loadFileRun_eq_memcpyRun (hword : WordMapped tr) {dentry : Dentry}
    (hi : dentry.inodeNum ≤ img.numInodes) :
    loadFileRun tr img fileData dentry = some (memcpyRun tr
      (stored (img.readData dentry.inodeNum 0 (img.inodeLength dentry.inodeNum)) fileData)
      virtualAddr (img.inodeLength dentry.inodeNum)) := by
  have hlen := img.length_readDataLoop_whole dentry.inodeNum
  rw [loadFileRun_eq hword hi, memcpyRun_eq hword (by decide), Image.readData,
    if_neg (Nat.not_lt.mpr hi)]
  have hself := map_stored_self
    (img.readDataLoop dentry.inodeNum (img.inodeLength dentry.inodeNum) 0) fileData
  rw [hlen] at hself
  rw [hself]
  rfl

end Load

/-! ## The page tables -/

theorem programRoom_eq : programRoom = 0x3b8000 := rfl

theorem virtualAddr_eq : virtualAddr = 0x08048000 := rfl

/-- An aligned long lies in one page. -/
theorem wordMapped_translate (pt : PageTableAddr) (ram : Nat → Nat → Nat) (m : Mode) (pg : Paging) :
    WordMapped (translate pt ram m pg) := by
  intro v j hv hj
  have hslot : (v + j) / 2 ^ 22 = v / 2 ^ 22 := by omega
  have hentry : (v + j) / 2 ^ 12 % 2 ^ 10 = v / 2 ^ 12 % 2 ^ 10 := by omega
  have hlarge : (v + j) % 2 ^ 22 = v % 2 ^ 22 + j := by omega
  have hsmall : (v + j) % 2 ^ 12 = v % 2 ^ 12 + j := by omega
  rw [translate, translate, hslot, hentry, hlarge, hsmall]
  dsimp only
  split
  · rfl
  · split
    · rw [Option.map_some, Nat.add_assoc]
    · split
      · rfl
      · rw [Option.map_some, Nat.add_assoc]

namespace Layout

variable {pt : PageTableAddr} {vid : Bool} {pg : Paging} {ram : Nat → Nat → Nat} {m : Mode} {q : Nat}

/-- The page has room for `programRoom` bytes from `VIRTUAL_ADDR` on, -/
theorem translate_room (h : Layout pt (some q) vid pg) (hq : q < maxNumProcesses) {j : Nat}
    (hj : j < programRoom) :
    translate pt ram m pg (virtualAddr + j) =
      some (userFrame q + (virtualAddr - userProgLoc) + j) := by
  rw [programRoom_eq] at hj
  have hslot : (virtualAddr + j) / 2 ^ 22 = 32 := by rw [virtualAddr_eq]; omega
  have hmod : (virtualAddr + j) % 2 ^ 22 = virtualAddr - userProgLoc + j := by
    simp only [virtualAddr, userProgLoc]
    omega
  rw [h.translate_user hq hslot, hmod, Nat.add_assoc]

/-- and the next byte is not mapped. -/
theorem translate_behind (h : Layout pt (some q) vid pg) :
    translate pt ram m pg (virtualAddr + programRoom) = none := by
  have hslot : (virtualAddr + programRoom) / 2 ^ 22 = 33 := by decide
  apply translate_absent
  rw [hslot]
  exact h.dir_other 33 (by decide) (by decide) (by decide) (by decide) (by decide)

/-- The frame that the user page is mapped to. -/
theorem userBase_eq (h : Layout pt (some q) vid pg) (hq : q < maxNumProcesses) :
    userBase pg = userFrame q := by
  have hdir : pg.pageDir userProgramPdirLoc = userFrame q ||| 0x87 := by
    rw [userProgramPdirLoc, h.dir_user, Option.elim_some]
  have hflags : 0x87 < 2 ^ 22 := by decide
  have hmask := Base.land_highMask_lor (userFrame_aligned q) hflags (by decide) (userFrame_lt hq)
  rw [userBase, hdir, hmask]

end Layout

section Tables

variable {pt : PageTableAddr} {vid : Bool} {pg : Paging} {ram : Nat → Nat → Nat} {q : Nat}
  {img : Image} {dentry : Dentry} {fileData : Bytes}

/-- Stores from an address on are one `storeBytes`. -/
theorem applyLog_logAt (mem : Nat → UInt8) (a : Nat) (bytes : List UInt8) :
    applyLog mem (logAt a bytes) = storeBytes mem a bytes := by
  funext x
  rw [storeBytes]
  by_cases hle : a ≤ x
  · obtain ⟨j, rfl⟩ := Nat.exists_eq_add_of_le hle
    rw [applyLog_logAt_add, Nat.add_sub_cancel_left]
    split
    · rename_i hin
      have hj : j < bytes.length := by omega
      rw [List.getD_eq_getElem?_getD, List.getD_eq_getElem?_getD, List.getElem?_eq_getElem hj,
        Option.getD_some, Option.getD_some]
    · rename_i hout
      rw [List.getD_eq_getElem?_getD, List.getElem?_eq_none (by omega), Option.getD_none]
  · rw [applyLog_logAt_of_lt mem bytes (Nat.not_le.mp hle), if_neg fun h ↦ hle h.1]

/-- A program that `loadFile` copies is stored in the frame of the process, as `launch` has it, -/
theorem loadFileRun_of_loadFile (h : Layout pt (some q) vid pg) (hq : q < maxNumProcesses)
    (hi : dentry.inodeNum ≤ img.numInodes) {bytes : List UInt8}
    (hload : loadFile img dentry = some bytes) :
    ∃ run, loadFileRun (translate pt ram .supervisor pg) img fileData dentry = some run ∧
      run.fault = none ∧ run.log.map Store.virt = List.range' virtualAddr bytes.length ∧
      ∀ mem, applyLog mem run.physLog =
        storeBytes mem (userBase pg + (virtualAddr - userProgLoc)) bytes := by
  rw [loadFile_eq hi] at hload
  split at hload
  · rename_i hroom
    cases hload
    have hlen := img.length_readDataLoop_whole dentry.inodeNum
    have hsize : virtualAddr + (img.readDataLoop dentry.inodeNum
        (img.inodeLength dentry.inodeNum) 0).length ≤ 2 ^ 32 := by
      rw [hlen, virtualAddr_eq]
      rw [programRoom_eq] at hroom
      omega
    have hmapped : ∀ j, j < (img.readDataLoop dentry.inodeNum
        (img.inodeLength dentry.inodeNum) 0).length →
        translate pt ram .supervisor pg (virtualAddr + j) =
          some (userFrame q + (virtualAddr - userProgLoc) + j) := fun j hj ↦
      h.translate_room hq (by omega)
    obtain ⟨hok, hlog, hvirt⟩ := copyBytes_of_mapped hsize hmapped
    refine ⟨_, loadFileRun_eq (wordMapped_translate pt ram _ pg) hi, hok, hvirt, fun mem ↦ ?_⟩
    rw [hlog, h.userBase_eq hq, applyLog_logAt]
  · cases hload

/-- A copy from `VIRTUAL_ADDR` on that is too long fills the room, and faults at its end. -/
theorem Layout.copyBytes_room (h : Layout pt (some q) vid pg) (hq : q < maxNumProcesses)
    (ram : Nat → Nat → Nat) {bytes : List UInt8} (hlen : programRoom < bytes.length) :
    (copyBytes (translate pt ram .supervisor pg) (2 ^ 32) (virtualAddr % 2 ^ 32) bytes).fault =
        some (virtualAddr + programRoom) ∧
      ∀ mem, applyLog mem (copyBytes (translate pt ram .supervisor pg) (2 ^ 32)
          (virtualAddr % 2 ^ 32) bytes).physLog =
        storeBytes mem (userBase pg + (virtualAddr - userProgLoc)) (bytes.take programRoom) := by
  have hsize : virtualAddr + programRoom < 2 ^ 32 := by
    rw [virtualAddr_eq, programRoom_eq]
    decide
  have hbehind : translate pt ram .supervisor pg (virtualAddr + programRoom) = none :=
    h.translate_behind
  obtain ⟨hfault, hlog⟩ := copyBytes_fault hlen hsize (fun j hj ↦ h.translate_room hq hj) hbehind
  refine ⟨hfault, fun mem ↦ ?_⟩
  rw [hlog, h.userBase_eq hq, applyLog_logAt]

/-- and one that is too long for it fills the page, and faults at its end. -/
theorem loadFileRun_of_loadFile_none (h : Layout pt (some q) vid pg) (hq : q < maxNumProcesses)
    (hload : loadFile img dentry = none) :
    ∃ run bytes, loadFileRun (translate pt ram .supervisor pg) img fileData dentry = some run ∧
      run.fault = some (virtualAddr + programRoom) ∧ bytes.length ≤ programRoom ∧
      ∀ mem, applyLog mem run.physLog =
        storeBytes mem (userBase pg + (virtualAddr - userProgLoc)) bytes := by
  by_cases hi : dentry.inodeNum ≤ img.numInodes
  · rw [loadFile_eq hi] at hload
    split at hload
    · cases hload
    · rename_i hroom
      have hlen := img.length_readDataLoop_whole dentry.inodeNum
      obtain ⟨hfault, hlog⟩ := h.copyBytes_room hq ram (hlen ▸ Nat.not_le.mp hroom)
      exact ⟨_, _, loadFileRun_eq (wordMapped_translate pt ram _ pg) hi, hfault,
        List.length_take_le _ _, hlog⟩
  · -- `read_data` fails, and `memcpy` copies until it faults
    have hne : ¬ 0 = img.inodeLength dentry.inodeNum := fun hzero ↦
      loadFile_eq_none_iff.mp hload ⟨hzero ▸ Nat.zero_le _, Or.inr hzero.symm⟩
    have hbytes : programRoom < ((List.range (2 ^ 32 - 1)).map (stored none fileData)).length := by
      rw [List.length_map, List.length_range, programRoom_eq]
      decide
    obtain ⟨hfault, hlog⟩ := h.copyBytes_room hq ram hbytes
    refine ⟨_, _, ?_, hfault, List.length_take_le _ _, hlog⟩
    rw [loadFileRun, loadFileLoop, if_neg hne, Image.readData, if_pos (Nat.not_le.mp hi)]
    dsimp only [Option.elim_none]
    rw [memcpyRun_eq (wordMapped_translate pt ram _ pg) (Nat.mod_lt _ (by decide)), Nat.add_zero,
      hfault]

/-- A run of a program that does not fit has faulted there. -/
theorem fault_of_not_room (h : Layout pt (some q) vid pg) (hq : q < maxNumProcesses)
    (hroom : ¬ img.inodeLength dentry.inodeNum ≤ programRoom) {run : CopyRun UInt8}
    (hrun : loadFileRun (translate pt ram .supervisor pg) img fileData dentry = some run) :
    run.fault = some (virtualAddr + programRoom) := by
  have hload : loadFile img dentry = none := loadFile_eq_none_iff.mpr fun hfits ↦ hroom hfits.1
  obtain ⟨run', bytes, hrun', hfault, -⟩ := loadFileRun_of_loadFile_none h hq hload
  rw [hrun, Option.some.injEq] at hrun'
  rwa [hrun']

/-- A program is loaded whole if and only if it fits. -/
theorem loadsWhole_iff (h : Layout pt (some q) vid pg) (hq : q < maxNumProcesses)
    (hi : dentry.inodeNum ≤ img.numInodes) (mem : Nat → UInt8) :
    LoadsWhole (translate pt ram .supervisor pg) img fileData dentry mem ↔
      img.inodeLength dentry.inodeNum ≤ programRoom := by
  constructor
  · rintro ⟨run, hrun, hok, -⟩
    by_contra hroom
    have hfault := fault_of_not_room h hq hroom hrun
    rw [hok] at hfault
    cases hfault
  · intro hroom
    have hload := loadFile_eq hi
    rw [if_pos hroom] at hload
    obtain ⟨run, hrun, hok, -, hmem⟩ := loadFileRun_of_loadFile h hq hi hload
    have hlen := img.length_readDataLoop_whole dentry.inodeNum
    refine ⟨run, hrun, hok, fun j hj ↦ ⟨_, h.translate_room hq (by omega), ?_⟩, fun a ha ↦ ?_⟩
    · have hformat : img.inodeLength dentry.inodeNum ≤ numDataBlocks * dataBlockSize :=
        hroom.trans (by decide)
      rw [hmem, h.userBase_eq hq, storeBytes, if_pos ⟨Nat.le_add_right _ _, by omega⟩,
        Nat.add_sub_cancel_left, Image.contents_getElem? hformat hj, List.getD_eq_getElem?_getD,
        Image.readDataLoop_getElem? _ 0 (by omega), Nat.zero_add, Option.getD_some]
    · rw [hmem, h.userBase_eq hq, storeBytes, if_neg]
      rintro ⟨hle, hlt⟩
      obtain ⟨j, rfl⟩ := Nat.exists_eq_add_of_le hle
      exact ha j (by omega) (h.translate_room hq (by omega))

/-- Its stores stay in the page if and only if it fits. -/
theorem loadsInPage_iff (h : Layout pt (some q) vid pg) (hq : q < maxNumProcesses)
    (hi : dentry.inodeNum ≤ img.numInodes) :
    LoadsInPage (translate pt ram .supervisor pg) img fileData dentry ↔
      img.inodeLength dentry.inodeNum ≤ programRoom := by
  constructor
  · rintro ⟨run, hrun, hin⟩
    by_contra hroom
    have hfault := fault_of_not_room h hq hroom hrun
    have hmem : virtualAddr + programRoom ∈ run.addresses := by
      rw [CopyRun.addresses, hfault]
      exact List.mem_append_right _ (List.mem_singleton.mpr rfl)
    have hlt := (hin _ hmem).2
    rw [virtualAddr_eq, programRoom_eq] at hlt
    omega
  · intro hroom
    have hload := loadFile_eq hi
    rw [if_pos hroom] at hload
    obtain ⟨run, hrun, hok, hvirt, -⟩ := loadFileRun_of_loadFile h hq hi hload
    have hlen := img.length_readDataLoop_whole dentry.inodeNum
    refine ⟨run, hrun, fun v hv ↦ ?_⟩
    rw [CopyRun.addresses, hok, hvirt, hlen, Option.toList_none, List.append_nil,
      List.mem_range'_1, virtualAddr_eq] at hv
    rw [programRoom_eq] at hroom
    omega

end Tables

/-! ## Every program -/

/-- An accepted program is a regular file of the directory. -/
theorem inodeNum_lt_of_checkValidity {img : Image} (hwf : img.WellFormed) {program exeCheck : Bytes}
    {dentry : Dentry} (h : checkValidity img program exeCheck = some dentry) :
    dentry.inodeNum < img.numInodes := by
  obtain ⟨hfound, htwo, -⟩ := checkValidity_eq_some_iff.mp h
  obtain ⟨-, i, hi, -, -, htype, hinode⟩ := Image.exists_entry_of_readDentryByName hfound
  rw [hinode]
  exact hwf.inodeNum_lt i hi (htype.symm.trans htwo)

/-- The translation that `load_file` runs under: `create_page` for the new process, after any calls
that change the tables. -/
def loadTranslate (pt : PageTableAddr) (pg : Paging) (ram : Nat → Nat → Nat)
    (calls : List PagingCall) (q : Nat) : Nat → Option Nat :=
  translate pt ram .supervisor (createPage pt q (pagingRun pt pg calls))

/-- The directory entry of the small image. -/
def shellDentry : Dentry := ⟨strncpy shellName fileNameSize, 2, 0⟩

/-- The translation after the given calls, from tables of zeros. -/
def tinyTranslate (calls : List PagingCall) (q : Nat) : Nat → Option Nat :=
  loadTranslate tinyMachine.pt ⟨fun _ ↦ 0, fun _ ↦ 0⟩ (fun _ _ ↦ 0) calls q

/-- The small image with a shell of one byte more than there is room for; all its block numbers
are `0`. -/
def bigImage : Image where
  byte a :=
    if a = 4096 then 0x01
    else if a = 4097 then 0x80
    else if a = 4098 then 0x3b
    else tinyImage.byte a

theorem bigImage_length : bigImage.inodeLength 0 = programRoom + 1 := by decide

theorem bigImage_wellFormed : bigImage.WellFormed where
  inodeNum_lt := by decide
  length_le := by decide
  blockNum_lt i hi _ k hk := by
    have hi0 : i = 0 := Nat.lt_one_iff.mp hi
    subst hi0
    have hinode : bigImage.inodeNum 0 = 0 := by decide
    rw [hinode, bigImage_length, programRoom_eq, dataBlockSize] at hk
    have hword : bigImage.dataBlockNum 0 k = 0 := by
      refine Image.dataBlockNum_eq_zero (fun a hle hlt ↦ ?_) (by rw [numDataBlocks]; omega)
      have haddr : Image.inodeAddr 0 = 4096 := rfl
      rw [haddr] at hle hlt
      rw [dataBlockSize] at hlt
      have hmod : a % 2 ^ 32 = a := Nat.mod_eq_of_lt (by omega)
      have hbyte : tinyImage.byte a = 0 := by
        simp only [tinyImage]
        repeat rw [if_neg (by omega)]
      simp only [Image.load, hmod, bigImage, hbyte]
      repeat rw [if_neg (by omega)]
    rw [hinode, hword]
    decide

section Every

variable (pt : PageTableAddr) (pg : Paging) (ram : Nat → Nat → Nat) (calls : List PagingCall)

/-- **When `load_file` copies the whole program.**  The pieces always come to one `memcpy` of one
`read_data` of the whole file; the file is in memory afterwards, and nothing else has changed, if
and only if it has no more than `programRoom` bytes. -/
theorem load_file_whole_iff (hcalls : ValidCalls calls) (q : Nat) (hq : q < maxNumProcesses)
    (img : Image) (dentry : Dentry) (hinode : dentry.inodeNum < img.numInodes) (fileData : Bytes)
    (mem : Nat → UInt8) :
    loadFileRun (loadTranslate pt pg ram calls q) img fileData dentry =
        some (memcpyRun (loadTranslate pt pg ram calls q)
          (stored (img.readData dentry.inodeNum 0 (img.inodeLength dentry.inodeNum)) fileData)
          virtualAddr (img.inodeLength dentry.inodeNum)) ∧
      (LoadsWhole (loadTranslate pt pg ram calls q) img fileData dentry mem ↔
        img.inodeLength dentry.inodeNum ≤ programRoom) := by
  obtain ⟨vid, hlayout⟩ := pagingRun_layout pt pg hcalls
  exact ⟨loadFileRun_eq_memcpyRun (wordMapped_translate pt ram _ _) hinode.le,
    loadsWhole_iff (hlayout.createPage hq) hq hinode.le mem⟩

/-- The shell of the small image, in the page of the second process. -/
theorem load_file_whole_shell :
    LoadsWhole (tinyTranslate [.setVidmap] 1) tinyImage (fun _ ↦ 0xcc) shellDentry fun _ ↦ 0 := by
  have hcalls : ValidCalls [.setVidmap] := by
    intro pid hp
    cases List.mem_singleton.mp hp
  exact (load_file_whole_iff _ _ _ _ hcalls 1 (by decide) tinyImage shellDentry (by decide) _ _).2.mpr
    (by decide)

/-- The long shell page-faults: the load does not come to its end. -/
theorem load_file_faults :
    bigImage.WellFormed ∧ bigImage.readDentryByName shellName = some shellDentry ∧
      bigImage.inodeLength shellDentry.inodeNum < 2 ^ 31 ∧
      ¬ LoadsWhole (tinyTranslate [] 0) bigImage (fun _ ↦ 0) shellDentry fun _ ↦ 0 := by
  refine ⟨bigImage_wellFormed, by decide, by decide, fun h ↦ ?_⟩
  have hroom := (loadsWhole_iff ((Layout.init _ _).createPage (by decide)) (by decide) (by decide)
    _).mp h
  exact absurd hroom (by decide)

/-- **When a program fits its page.**  For every well-formed image and every program that
`check_validity` accepts, `load_file` stores to the page of the process only if and only if the file
has no more than `programRoom` bytes. -/
theorem load_file_in_page_iff (hcalls : ValidCalls calls) (q : Nat) (hq : q < maxNumProcesses)
    (img : Image) (hwf : img.WellFormed) (program exeCheck : Bytes) (dentry : Dentry)
    (hvalid : checkValidity img program exeCheck = some dentry) (fileData : Bytes) :
    LoadsInPage (loadTranslate pt pg ram calls q) img fileData dentry ↔
      img.inodeLength dentry.inodeNum ≤ programRoom := by
  obtain ⟨vid, hlayout⟩ := pagingRun_layout pt pg hcalls
  exact loadsInPage_iff (hlayout.createPage hq) hq (inodeNum_lt_of_checkValidity hwf hvalid).le

theorem load_file_in_page_shell :
    LoadsInPage (tinyTranslate [] 0) tinyImage (fun _ ↦ 0) shellDentry :=
  (load_file_in_page_iff _ _ _ [] (fun _ hp ↦ absurd hp List.not_mem_nil) 0 (by decide) tinyImage
    FdArray.tinyImage_wellFormed shellName (fun _ ↦ 0) shellDentry (by decide) _).mpr (by decide)

/-- The long shell is accepted, and its last byte goes behind the page. -/
theorem load_file_leaves_page :
    bigImage.WellFormed ∧ checkValidity bigImage shellName (fun _ ↦ 0) = some shellDentry ∧
      ¬ LoadsInPage (tinyTranslate [] 0) bigImage (fun _ ↦ 0) shellDentry := by
  refine ⟨bigImage_wellFormed, by decide, fun h ↦ ?_⟩
  have hroom := (loadsInPage_iff ((Layout.init _ _).createPage (by decide)) (by decide)
    (by decide)).mp h
  exact absurd hroom (by decide)

end Every

end Illinix
