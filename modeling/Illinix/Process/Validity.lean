import Illinix.FileSys.Data
import Illinix.Process.Args
import Illinix.Process.Step

/-!
# What `execute` accepts

`check_validity` reads the first four bytes of a file into `exe_check`, and `execute` reads the
header into `file_header`.  Both ignore how much `read_data` delivered, so the part of a buffer that a
short file does not fill keeps what the stack held there.

`Judged` is what the two reads should decide from the image alone: whether there is an executable of
that name, and where it is entered.  `judged_iff` says for which images and names they do, whatever
the stack held.
-/

namespace Illinix

/-! ## Executables of an image -/

/-- The file of an inode. -/
def Image.file? (img : Image) (inode : Nat) : Option (List UInt8) :=
  if inode < img.numInodes then some (img.contents inode) else none

/-- Entry `i` of the directory names an executable: a file of type 2 that begins with the four
magic bytes. -/
structure Image.IsExecutable (img : Image) (name : List UInt8) (i : Nat) : Prop where
  lt : i < img.numDir
  entryName : img.entryName i = name
  fileType : img.fileType i = 2
  magic : ∃ file, img.file? (img.inodeNum i) = some file ∧ magic <+: file

/-- Bytes 24 to 27 of a file, as a word. -/
def entryWord (file : List UInt8) : Option Nat :=
  match file.drop 24 with
  | b₀ :: b₁ :: b₂ :: b₃ :: _ =>
      some (b₀.toNat + 2 ^ 8 * b₁.toNat + 2 ^ 16 * b₂.toNat + 2 ^ 24 * b₃.toNat)
  | _ => none

/-- `execute` judges the command by the image: whatever `exe_check` and `file_header` held, it
goes on if and only if there is an executable of that name, and it then enters the program at the
word in bytes 24 to 27 of the file. -/
structure Judged (M : Machine) (k : Kernel) (f : Frame) (l : Locals) (command : Bytes) : Prop where
  accepts : ∀ exeCheck fileHeader,
    execute M k f { l with exeCheck := exeCheck, fileHeader := fileHeader } command ≠ some .error ↔
      ∃ i, M.img.IsExecutable (commandWord command) i
  enters : ∀ exeCheck fileHeader,
    execute M k f { l with exeCheck := exeCheck, fileHeader := fileHeader } command ≠ some .error →
      ∃ d file w, M.img.readDentryByName (Bytes.ofList (commandWord command)) = some d ∧
        M.img.file? d.inodeNum = some file ∧ entryWord file = some w ∧
        ∀ pid eip k', execute M k f { l with exeCheck := exeCheck, fileHeader := fileHeader } command =
          some (.entered pid eip k') → eip = w

/-- The entry that the lookup of the name finds. -/
structure Image.Finds (img : Image) (name : List UInt8) (d : Dentry) : Prop where
  found : img.readDentryByName (Bytes.ofList name) = some d
  fileType : d.fileType = 2

/-- The bytes that `check_validity` gets of a file. -/
def Image.firstBytes (img : Image) (inode : Nat) : List UInt8 := (img.readData inode 0 4).getD []

/-- The image decides about the name: an entry of type 2 that is found, and whose first bytes, as
far as there are any, are the magic ones, has a file of at least 28 bytes; and if there is an
executable of that name, the entry that is found is one. -/
structure Image.Decides (img : Image) (name : List UInt8) : Prop where
  long : ∀ d, img.Finds name d → img.firstBytes d.inodeNum <+: magic →
    d.inodeNum < img.numInodes ∧ 28 ≤ img.inodeLength d.inodeNum
  first : (∃ i, img.IsExecutable name i) →
    ∃ d file, img.Finds name d ∧ img.file? d.inodeNum = some file ∧ magic <+: file

/-! ## The two buffers -/

section Buffers

variable {img : Image} {bytes : List UInt8} {junk : Bytes}

/-- The beginning of a file is read whatever its length. -/
theorem Image.readDataLoop_start (img : Image) (inode : Nat) {n : Nat}
    (hn : n ≤ numDataBlocks * dataBlockSize) :
    img.readDataLoop inode n 0 = (img.contents inode).take n := by
  have hblocks := img.length_dataBlocks inode
  have hlen := img.length_readDataLoop inode n 0
  refine List.ext_getElem? fun j ↦ ?_
  by_cases hj : j < min n (img.inodeLength inode)
  · rw [Image.readDataLoop_getElem? n 0 (by omega), Image.contents_eq_take, List.take_take,
      List.getElem?_take_of_lt hj, Nat.zero_add, Image.dataBlocks_getElem? (by omega)]
  · rw [List.getElem?_eq_none (by omega), List.getElem?_eq_none]
    rw [Image.contents_eq_take, List.length_take, List.length_take]
    omega

theorem Image.readData_start (img : Image) {inode n : Nat} (hinode : inode < img.numInodes)
    (hn : n ≤ numDataBlocks * dataBlockSize) :
    img.readData inode 0 n = some ((img.contents inode).take n) := by
  rw [Image.readData, if_neg (Nat.not_lt.mpr hinode.le), img.readDataLoop_start inode hn]

theorem Image.length_firstBytes_le (img : Image) (inode : Nat) :
    (img.firstBytes inode).length ≤ 4 := by
  rw [Image.firstBytes, Image.readData]
  split
  · exact Nat.zero_le 4
  · rw [Option.getD_some, Image.length_readDataLoop]
    exact Nat.min_le_left _ _

/-- `exe_check` after `read_data`. -/
theorem map_stored (h : bytes.length ≤ 4) (exeCheck : Bytes) :
    (List.range 4).map (stored (some bytes) exeCheck) =
      bytes ++ (List.range' bytes.length (4 - bytes.length)).map exeCheck :=
  Base.map_range_getD h exeCheck

/-- Only a beginning of the magic bytes is completed to them, -/
theorem prefix_of_map_stored (h : bytes.length ≤ 4) {exeCheck : Bytes}
    (heq : (List.range 4).map (stored (some bytes) exeCheck) = magic) : bytes <+: magic := by
  rw [map_stored h] at heq
  exact ⟨_, heq⟩

/-- some contents of the buffer complete it, -/
theorem map_stored_magic (h : bytes <+: magic) :
    (List.range 4).map (stored (some bytes) fun j ↦ magic.getD j 0) = magic := by
  refine List.ext_getElem? fun j ↦ ?_
  by_cases hj : j < 4
  · rw [List.getElem?_map, List.getElem?_range hj, Option.map_some, stored, Option.getD_some]
    have hmagic : magic[j]? = some (magic.getD j 0) := by
      rw [List.getD_eq_getElem?_getD, List.getElem?_eq_getElem (show j < magic.length from hj),
        Option.getD_some]
    rw [hmagic]
    congr 1
    by_cases hin : j < bytes.length
    · rw [List.getD_eq_getElem?_getD, List.getElem?_eq_getElem hin, Option.getD_some,
        h.getElem hin, List.getD_eq_getElem?_getD,
        List.getElem?_eq_getElem (show j < magic.length from hj), Option.getD_some]
    · rw [List.getD_eq_getElem?_getD, List.getElem?_eq_none (Nat.not_lt.mp hin), Option.getD_none]
  · rw [List.getElem?_eq_none, List.getElem?_eq_none]
    · exact Nat.not_lt.mp hj
    · rw [List.length_map, List.length_range]
      exact Nat.not_lt.mp hj

/-- and a buffer of zeros completes nothing. -/
theorem eq_magic_of_map_stored_zero (h : bytes.length ≤ 4)
    (heq : (List.range 4).map (stored (some bytes) fun _ ↦ 0) = magic) : bytes = magic := by
  have hbegin := prefix_of_map_stored h heq
  have hlast : bytes.getD 3 0 = 0x46 := by
    have hget := congrArg (fun l ↦ l.getD 3 0) heq
    exact hget
  have hlen : 3 < bytes.length := by
    by_contra hshort
    rw [List.getD_eq_getElem?_getD, List.getElem?_eq_none (Nat.not_lt.mp hshort)] at hlast
    exact absurd hlast (by decide)
  exact hbegin.eq_of_length (by show bytes.length = 4; omega)

end Buffers

/-! ## The entry point -/

theorem exists_entryWord {file : List UInt8} (h : 28 ≤ file.length) :
    ∃ b₀ b₁ b₂ b₃ rest, file.drop 24 = b₀ :: b₁ :: b₂ :: b₃ :: rest := by
  have hlen : 4 ≤ (file.drop 24).length := by
    rw [List.length_drop]
    omega
  match file.drop 24, hlen with
  | b₀ :: b₁ :: b₂ :: b₃ :: rest, _ => exact ⟨b₀, b₁, b₂, b₃, rest, rfl⟩

theorem length_of_entryWord {file : List UInt8} {w : Nat} (h : entryWord file = some w) :
    28 ≤ file.length := by
  by_contra hshort
  have hlen : (file.drop 24).length < 4 := by
    rw [List.length_drop]
    omega
  rw [entryWord] at h
  split at h
  · rename_i heq
    rw [heq] at hlen
    simp only [List.length_cons] at hlen
    omega
  · cases h

/-- A long file is entered where it says, whatever `file_header` held. -/
theorem entryPoint_eq {img : Image} {inode : Nat} (hinode : inode < img.numInodes)
    (hlen : 28 ≤ (img.contents inode).length) :
    ∃ w, entryWord (img.contents inode) = some w ∧
      ∀ fileHeader, entryPoint img inode fileHeader = w := by
  obtain ⟨b₀, b₁, b₂, b₃, rest, hdrop⟩ := exists_entryWord hlen
  refine ⟨_, by rw [entryWord, hdrop], fun fileHeader ↦ ?_⟩
  have hheader : ∀ j b, j < 4 → (b₀ :: b₁ :: b₂ :: b₃ :: rest)[j]? = some b →
      stored (img.readData inode 0 headerSize) fileHeader (24 + j) = b := by
    intro j b hj hb
    rw [← hdrop, List.getElem?_drop] at hb
    rw [img.readData_start hinode (by decide), stored, Option.getD_some, List.getD_eq_getElem?_getD,
      List.getElem?_take_of_lt (by simp only [headerSize]; omega), hb, Option.getD_some]
  have h₀ := hheader 0 b₀ (by decide) rfl
  have h₁ := hheader 1 b₁ (by decide) rfl
  have h₂ := hheader 2 b₂ (by decide) rfl
  have h₃ := hheader 3 b₃ (by decide) rfl
  simp only [entryPoint]
  rw [h₀, h₁, h₂, h₃]
  exact Base.lor_shiftLeft_bytes b₀.toNat_lt b₁.toNat_lt b₂.toNat_lt

/-! ## `execute` and `check_validity` -/

theorem checkValidity_eq_some {img : Image} {name : List UInt8} {exeCheck : Bytes} {d : Dentry} :
    checkValidity img (Bytes.ofList name) exeCheck = some d ↔ img.Finds name d ∧
      (List.range 4).map (stored (some (img.firstBytes d.inodeNum)) exeCheck) = magic := by
  have hstored : stored (some (img.firstBytes d.inodeNum)) exeCheck =
      stored (img.readData d.inodeNum 0 4) exeCheck := rfl
  rw [checkValidity_eq_some_iff, hstored]
  constructor
  · rintro ⟨hd, htype, hmagic⟩
    exact ⟨⟨hd, htype⟩, hmagic⟩
  · rintro ⟨hfinds, hmagic⟩
    exact ⟨hfinds.found, hfinds.fileType, hmagic⟩

section Execute

variable {M : Machine} {k : Kernel} {f : Frame} {l : Locals} {command : Bytes}

/-- With a free process number, `execute` fails on what `check_validity` rejects, and enters what
it accepts at the entry point. -/
theorem execute_of_freeSlot {q : Nat} (hq : k.freeSlot = some q)
    (hword : (commandWord command).length < fileNameSize) :
    (execute M k f l command ≠ some .error ↔
        ∃ d, checkValidity M.img (Bytes.ofList (commandWord command)) l.exeCheck = some d) ∧
      ∀ d, checkValidity M.img (Bytes.ofList (commandWord command)) l.exeCheck = some d →
        ∀ pid eip k', execute M k f l command = some (.entered pid eip k') →
          eip = entryPoint M.img d.inodeNum l.fileHeader := by
  have hparse : (parseArgs command).1 = commandWord command := firstWord_eq command
  have hword' : ¬ fileNameSize ≤ (commandWord command).length := Nat.not_le.mpr hword
  simp only [execute, hparse, ge_iff_le, if_neg hword', hq]
  cases hvalid : checkValidity M.img (Bytes.ofList (commandWord command)) l.exeCheck with
  | none =>
      refine ⟨iff_of_false (fun h ↦ h rfl) ?_, fun d hd ↦ (by cases hd)⟩
      rintro ⟨d, hd⟩
      cases hd
  | some d =>
      dsimp only
      cases hload : loadFile M.img d with
      | none =>
          refine ⟨iff_of_true (fun h ↦ (by cases h)) ⟨d, rfl⟩, fun d' _ pid eip k' h ↦ ?_⟩
          cases h
      | some bytes =>
          refine ⟨iff_of_true (fun h ↦ (by cases h)) ⟨d, rfl⟩, fun d' hd pid eip k' h ↦ ?_⟩
          cases hd
          cases h
          rfl

end Execute

/-! ## When the image decides -/

section Decides

variable {img : Image} {name : List UInt8} {d : Dentry}

theorem Image.file?_eq_some {inode : Nat} {file : List UInt8} :
    img.file? inode = some file ↔ inode < img.numInodes ∧ img.contents inode = file := by
  rw [Image.file?]
  split
  · rename_i hlt
    rw [Option.some.injEq, and_iff_right hlt]
  · rename_i hge
    exact iff_of_false (fun h ↦ (by cases h)) fun h ↦ hge h.1

theorem Image.firstBytes_eq {inode : Nat} (hinode : inode < img.numInodes) :
    img.firstBytes inode = (img.contents inode).take 4 := by
  rw [Image.firstBytes, img.readData_start hinode (by decide), Option.getD_some]

/-- An entry that is found is one of the directory. -/
theorem Image.Finds.exists_isExecutable (h : img.Finds name d) (hname : ∀ x ∈ name, x ≠ 0)
    (hlen : name.length < fileNameSize) {file : List UInt8}
    (hfile : img.file? d.inodeNum = some file) (hmagic : magic <+: file) :
    ∃ i, img.IsExecutable name i := by
  obtain ⟨hstrlen, i, hi, -, hentry, htype, hinode⟩ :=
    Image.exists_entry_of_readDentryByName h.found
  have hself := (cstring_ofList hname (hlen.trans (by decide))).2
  rw [cstr_eq_cstring hstrlen (by decide), hself] at hentry
  exact ⟨i, hi, hentry, by rw [← htype, h.fileType], file, by rw [← hinode, hfile], hmagic⟩

/-- What is accepted in an image that decides is a long executable. -/
theorem Image.Decides.of_stored (h : img.Decides name) (hd : img.Finds name d) {exeCheck : Bytes}
    (heq : (List.range 4).map (stored (some (img.firstBytes d.inodeNum)) exeCheck) = magic) :
    d.inodeNum < img.numInodes ∧ 28 ≤ (img.contents d.inodeNum).length ∧
      magic <+: img.contents d.inodeNum := by
  have hbegin := prefix_of_map_stored (img.length_firstBytes_le _) heq
  obtain ⟨hinode, hlong⟩ := h.long d hd hbegin
  have hlen : 28 ≤ (img.contents d.inodeNum).length := by
    rw [Image.length_contents_eq_min]
    exact Nat.le_min.mpr ⟨hlong, by decide⟩
  refine ⟨hinode, hlen, ?_⟩
  rw [Image.firstBytes_eq hinode] at hbegin
  have htake : (img.contents d.inodeNum).take 4 = magic := by
    refine hbegin.eq_of_length ?_
    rw [List.length_take]
    show min 4 _ = 4
    omega
  rw [← htake]
  exact List.take_prefix 4 _

theorem commandWord_ne_zero (command : Bytes) : ∀ x ∈ commandWord command, x ≠ 0 := fun x hx ↦
  ne_zero_of_mem_cstrFrom command commandSize 0 x ((List.takeWhile_prefix _).subset hx)

end Decides

section Judged

variable {M : Machine} {k : Kernel} {q : Nat} {f : Frame} {l : Locals} {command : Bytes}

/-- `execute` goes on with a file of type 2 whose first bytes, with what `exe_check` held behind
them, are the magic ones. -/
theorem execute_accepts_iff (hq : k.freeSlot = some q)
    (hword : (commandWord command).length < fileNameSize) (exeCheck fileHeader : Bytes) :
    execute M k f { l with exeCheck := exeCheck, fileHeader := fileHeader } command ≠ some .error ↔
      ∃ d, M.img.Finds (commandWord command) d ∧
        (List.range 4).map (stored (some (M.img.firstBytes d.inodeNum)) exeCheck) = magic := by
  rw [(execute_of_freeSlot hq hword).1]
  exact exists_congr fun d ↦ checkValidity_eq_some

/-- A judged name is not one of a short file: a stack that held the magic bytes lets every
beginning of them through. -/
theorem Judged.long (h : Judged M k f l command) (hq : k.freeSlot = some q)
    (hword : (commandWord command).length < fileNameSize) {d : Dentry}
    (hd : M.img.Finds (commandWord command) d) (hbegin : M.img.firstBytes d.inodeNum <+: magic) :
    d.inodeNum < M.img.numInodes ∧ 28 ≤ M.img.inodeLength d.inodeNum := by
  have hgo := (execute_accepts_iff (M := M) (f := f) (l := l) hq hword (fun j ↦ magic.getD j 0)
    fun _ ↦ 0).mpr ⟨d, hd, map_stored_magic hbegin⟩
  obtain ⟨d', file, w, hd', hfile, hw, -⟩ := h.enters _ _ hgo
  rw [hd.found, Option.some.injEq] at hd'
  subst hd'
  obtain ⟨hinode, rfl⟩ := Image.file?_eq_some.mp hfile
  have hlen := length_of_entryWord hw
  rw [Image.length_contents_eq_min] at hlen
  exact ⟨hinode, by omega⟩

/-- An executable of that name is the one that is found: a stack of zeros lets only whole magic
bytes through. -/
theorem Judged.first (h : Judged M k f l command) (hq : k.freeSlot = some q)
    (hword : (commandWord command).length < fileNameSize)
    (hexec : ∃ i, M.img.IsExecutable (commandWord command) i) :
    ∃ d file, M.img.Finds (commandWord command) d ∧ M.img.file? d.inodeNum = some file ∧
      magic <+: file := by
  obtain ⟨d, hd, heq⟩ := (execute_accepts_iff hq hword (fun _ ↦ 0) fun _ ↦ 0).mp
    ((h.accepts _ _).mpr hexec)
  have hmagic := eq_magic_of_map_stored_zero (M.img.length_firstBytes_le _) heq
  obtain ⟨hinode, -⟩ := h.long hq hword hd (hmagic ▸ List.prefix_refl _)
  rw [Image.firstBytes_eq hinode] at hmagic
  exact ⟨d, _, hd, Image.file?_eq_some.mpr ⟨hinode, rfl⟩, hmagic ▸ List.take_prefix 4 _⟩

/-- Where the image decides, what is accepted does not depend on `exe_check`, -/
theorem Image.Decides.accepts (h : M.img.Decides (commandWord command)) (hq : k.freeSlot = some q)
    (hword : (commandWord command).length < fileNameSize) (exeCheck fileHeader : Bytes) :
    execute M k f { l with exeCheck := exeCheck, fileHeader := fileHeader } command ≠ some .error ↔
      ∃ i, M.img.IsExecutable (commandWord command) i := by
  rw [execute_accepts_iff hq hword]
  constructor
  · rintro ⟨d, hd, heq⟩
    obtain ⟨hinode, -, hmagic⟩ := h.of_stored hd heq
    exact hd.exists_isExecutable (commandWord_ne_zero command) hword
      (Image.file?_eq_some.mpr ⟨hinode, rfl⟩) hmagic
  · intro hexec
    obtain ⟨d, file, hd, hfile, hmagic⟩ := h.first hexec
    obtain ⟨hinode, rfl⟩ := Image.file?_eq_some.mp hfile
    refine ⟨d, hd, ?_⟩
    have hbytes : M.img.firstBytes d.inodeNum = magic := by
      rw [Image.firstBytes_eq hinode]
      exact (List.prefix_iff_eq_take.mp hmagic).symm
    rw [hbytes, map_stored (show magic.length ≤ 4 from Nat.le_refl 4)]
    rfl

/-- nor the entry point on `file_header`. -/
theorem Image.Decides.enters (h : M.img.Decides (commandWord command)) (hq : k.freeSlot = some q)
    (hword : (commandWord command).length < fileNameSize)
    (hgo : execute M k f l command ≠ some .error) :
    ∃ d file w, M.img.readDentryByName (Bytes.ofList (commandWord command)) = some d ∧
      M.img.file? d.inodeNum = some file ∧ entryWord file = some w ∧
      ∀ pid eip k', execute M k f l command = some (.entered pid eip k') → eip = w := by
  obtain ⟨d, hd⟩ := (execute_of_freeSlot hq hword).1.mp hgo
  obtain ⟨hfinds, heq⟩ := checkValidity_eq_some.mp hd
  obtain ⟨hinode, hlen, -⟩ := h.of_stored hfinds heq
  obtain ⟨w, hw, hentry⟩ := entryPoint_eq hinode hlen
  refine ⟨d, _, w, hfinds.found, Image.file?_eq_some.mpr ⟨hinode, rfl⟩, hw,
    fun pid eip k' hexec ↦ ?_⟩
  rw [(execute_of_freeSlot hq hword).2 d hd pid eip k' hexec, hentry]

end Judged

/-- **When `execute` judges by the image.**  With a free process number, and for a program name that
fits, it does whatever the stack held if and only if the image decides about the name. -/
theorem judged_iff (M : Machine) (k : Kernel) (q : Nat) (hq : k.freeSlot = some q) (f : Frame)
    (l : Locals) (command : Bytes) (hword : (commandWord command).length < fileNameSize) :
    Judged M k f l command ↔ M.img.Decides (commandWord command) := by
  constructor
  · intro h
    exact ⟨fun d hd hbegin ↦ h.long hq hword hd hbegin, h.first hq hword⟩
  · intro h
    exact ⟨h.accepts hq hword, fun _ _ hgo ↦ h.enters hq hword hgo⟩

/-- The shell of the small image, which has 40 bytes. -/
theorem judged_iff_shell :
    Judged tinyMachine (bootKernel tinyMachine tinyBoot) tinyBoot.frame tinyLocals shellName := by
  have hword : commandWord shellName = [0x73, 0x68, 0x65, 0x6c, 0x6c] := by decide
  have hfound : tinyImage.readDentryByName (Bytes.ofList [0x73, 0x68, 0x65, 0x6c, 0x6c]) =
      some ⟨strncpy shellName fileNameSize, 2, 0⟩ := by decide
  refine (judged_iff tinyMachine (bootKernel tinyMachine tinyBoot) 0 (by decide) tinyBoot.frame
    tinyLocals shellName (by rw [hword]; decide)).mpr ⟨fun d hd _ ↦ ?_, fun _ ↦ ?_⟩
  · rw [hword] at hd
    have hd' := hd.found
    rw [show tinyMachine.img = tinyImage from rfl, hfound, Option.some.injEq] at hd'
    subst hd'
    exact ⟨by decide, by decide⟩
  · have hbytes : (tinyImage.contents 0).take 4 = magic := by
      rw [← Image.firstBytes_eq (by decide)]
      decide
    refine ⟨⟨strncpy shellName fileNameSize, 2, 0⟩, tinyImage.contents 0, ⟨?_, rfl⟩,
      Image.file?_eq_some.mpr ⟨by decide, rfl⟩, hbytes ▸ List.take_prefix 4 _⟩
    rw [hword]
    exact hfound

/-- The small image with a shell of three bytes, `7F 45 4C`. -/
def shortImage : Image where
  byte a := if a = 4096 then 3 else tinyImage.byte a

def shortMachine : Machine := { tinyMachine with img := shortImage }

/-- With the fourth magic byte on the stack it is accepted, and with a zero it is not. -/
theorem not_judged_short :
    execute shortMachine (bootKernel shortMachine tinyBoot) tinyBoot.frame
        { tinyLocals with exeCheck := fun _ ↦ 0x46 } shellName ≠ some .error ∧
      execute shortMachine (bootKernel shortMachine tinyBoot) tinyBoot.frame tinyLocals shellName =
        some .error ∧
      ¬ Judged shortMachine (bootKernel shortMachine tinyBoot) tinyBoot.frame tinyLocals shellName := by
  have hfree : (bootKernel shortMachine tinyBoot).freeSlot = some 0 := by decide
  have hword : (commandWord shellName).length < fileNameSize := by decide
  have hyes : execute shortMachine (bootKernel shortMachine tinyBoot) tinyBoot.frame
      { tinyLocals with exeCheck := fun _ ↦ 0x46 } shellName ≠ some .error :=
    (execute_of_freeSlot hfree hword).1.mpr ⟨⟨strncpy shellName fileNameSize, 2, 0⟩, by decide⟩
  have hno : execute shortMachine (bootKernel shortMachine tinyBoot) tinyBoot.frame tinyLocals
      shellName = some .error := by
    by_contra hgo
    obtain ⟨d, hd⟩ := (execute_of_freeSlot hfree hword).1.mp hgo
    have hnone : checkValidity shortMachine.img (Bytes.ofList (commandWord shellName))
        tinyLocals.exeCheck = none := by decide
    rw [hnone] at hd
    cases hd
  refine ⟨hyes, hno, fun h ↦ ?_⟩
  have hexec := (h.accepts (fun _ ↦ 0x46) fun _ ↦ 0).mp hyes
  exact (h.accepts (fun _ ↦ 0) fun _ ↦ 0).mpr hexec hno

end Illinix
