import Illinix.Base.Iterate
import Illinix.FileSys.Lookup
import Illinix.Syscalls.World

/-!
# Programs that read to the end

`cat` and `ls` open a name, read it until a read returns 0, and write what they read to the screen.
The two loops differ in the size they ask for, in what they do to a piece before it is written, and
in the message for a read that fails.

What a program reads depends on the driver behind the descriptor.  `Source` says what the reads of
one opening return, one after the other, and there is one for each kind of file; a loop over any
source writes the pieces up to the first read that returns nothing.  `cat_answer` and `ls_answer`
then say what the programs print and return on every image.
-/

namespace Illinix

open Base

namespace World

/-! ## The programs -/

/-- The body of a loop that reads and writes.  `prepare` is what happens to the buffer and the count
between the two calls. -/
def copyRound (fd nbytes : Int) (prepare : Bytes → Int → Bytes × Int) (failed : String)
    (s : Bytes × World) : Option (Int × World) ⊕ (Bytes × World) :=
  let r := s.2.read fd nbytes
  let buf := fill s.1 r.1.stored
  if r.1.ret = 0 then .inl (some (0, r.2))
  else if r.1.ret = -1 then .inl ((r.2.fdputs 1 (message failed)).map fun w ↦ (3, w))
  else
    let p := prepare buf r.1.ret
    match r.2.write 1 p.1 p.2 with
    | none => .inl none
    | some (ret, w) => if ret = -1 then .inl (some (3, w)) else .inr (p.1, w)

/-- The loop of `ece391cat.c`. -/
def catRound (fd : Int) : Bytes × World → Option (Int × World) ⊕ (Bytes × World) :=
  copyRound fd 1024 (fun buf cnt ↦ (buf, cnt)) "file read failed\n"

/-- `main` of `ece391cat.c`, with at most `n` rounds of its loop; `buf` is what the stack held. -/
def cat (n : Nat) (buf : Bytes) (w : World) : Option (Int × World) :=
  let args := getargs w.args buf 1024
  if 0 ≠ args.ret then
    (w.fdputs 1 (message "could not read arguments\n")).map fun w ↦ (3, w)
  else
    let opened := w.openFd args.buf
    if -1 = opened.1 then
      (opened.2.fdputs 1 (message "file not found\n")).map fun w ↦ (2, w)
    else (rounds (catRound opened.1) n (args.buf, opened.2)).elim id fun _ ↦ none

/-- The loop of `ece391ls.c`; `SBUFSIZE` is 33. -/
def lsRound (fd : Int) : Bytes × World → Option (Int × World) ⊕ (Bytes × World) :=
  copyRound fd (33 - 1) (fun buf cnt ↦ (Function.update buf cnt.toNat 0x0a, cnt + 1))
    "directory entry read failed\n"

/-- `main` of `ece391ls.c`, with at most `n` rounds of its loop. -/
def ls (n : Nat) (buf : Bytes) (w : World) : Option (Int × World) :=
  let opened := w.openFd dotName
  if -1 = opened.1 then
    (opened.2.fdputs 1 (message "directory open failed\n")).map fun w ↦ (2, w)
  else (rounds (lsRound opened.1) n (buf, opened.2)).elim id fun _ ↦ none

/-! ## Sources -/

/-- Behind descriptor `fd` is a source: the `k`-th read of `nbytes` bytes returns `res k`.  `P k` is
what the descriptors are like before it. -/
structure Source (img : Image) (fd : Nat) (nbytes : Int) (res : Nat → ReadResult)
    (P : Nat → FdArray → Prop) : Prop where
  driver : ∀ k tbl, P k tbl → World.driver tbl fd ≠ some .terminalInput
  read : ∀ k tbl, P k tbl → (FdArray.read img .fail tbl fd nbytes).1 = res k
  next : ∀ k tbl, P k tbl → P (k + 1) (FdArray.read img .fail tbl fd nbytes).2

variable {img : Image}

theorem driver_of_flags {tbl : FdArray} {i : Nat} {ops : FileOps} (hlt : i < fdArraySize)
    (hflags : (tbl i).flags ≠ 0) (hops : (tbl i).fileOperations = some ops) :
    driver tbl i = some ops := by
  rw [driver, if_neg, Int.toNat_natCast, hops]
  rw [not_or, Int.toNat_natCast, OutOfRange]
  exact ⟨by omega, hflags⟩

/-- The pieces of a regular file. -/
def filePiece (file : List UInt8) (n k : Nat) : ReadResult :=
  let piece := (file.drop (n * k)).take n
  ⟨piece.length, piece⟩

theorem source_file {fd inode n : Nat} (hi : inode ≤ img.numInodes)
    (hlen : img.inodeLength inode ≤ numDataBlocks * dataBlockSize) (hn : n < 2 ^ 31) :
    Source img fd n (filePiece (img.contents inode) n) fun k tbl ↦
      FdArray.OpenAt tbl fd inode (min (n * k) (img.inodeLength inode)) := by
  have hc := Image.length_contents hlen
  have hdrop : ∀ k, (img.contents inode).drop (min (n * k) (img.inodeLength inode)) =
      (img.contents inode).drop (n * k) := by
    intro k
    rw [← hc]
    rcases Nat.le_total (n * k) (img.contents inode).length with hle | hle
    · rw [Nat.min_eq_left hle]
    · rw [Nat.min_eq_right hle, List.drop_length, List.drop_eq_nil_of_le hle]
  have hread : ∀ k tbl, FdArray.OpenAt tbl fd inode (min (n * k) (img.inodeLength inode)) → _ :=
    fun k tbl h ↦ h.read hi hlen (Nat.min_le_right _ _) ⟨Int.natCast_nonneg n, by omega⟩ .fail
  refine ⟨fun k tbl h hd ↦ ?_, fun k tbl h ↦ ?_, fun k tbl h ↦ ?_⟩
  · rw [driver_of_flags h.lt (by rw [h.flags]; decide) h.ops] at hd
    cases hd
  · obtain ⟨hres, -, -⟩ := hread k tbl h
    rw [hres, Int.toNat_natCast, hdrop]
    rfl
  · obtain ⟨-, hopen, -⟩ := hread k tbl h
    have hpos : min (n * k) (img.inodeLength inode) + (((img.contents inode).drop
        (min (n * k) (img.inodeLength inode))).take (Int.toNat n)).length =
        min (n * (k + 1)) (img.inodeLength inode) := by
      rw [Int.toNat_natCast, List.length_take, List.length_drop, hc, Nat.mul_succ]
      omega
    rwa [hpos] at hopen

theorem source_dir {fd : Nat} {n : Int} (hn : fileNameSize ≤ n) :
    Source img fd n (FdArray.dirResult img) fun k tbl ↦ FdArray.OpenDir tbl fd k := by
  refine ⟨fun k tbl h hd ↦ ?_, fun k tbl h ↦ (h.read img .fail hn).1,
    fun k tbl h ↦ (h.read img .fail hn).2⟩
  rw [driver_of_flags h.lt h.flags h.ops] at hd
  cases hd

/-- The clock always answers 0. -/
theorem source_rtc {fd : Nat} (hlt : fd < fdArraySize) (n : Int) :
    Source img fd n (fun _ ↦ ⟨0, []⟩) fun _ tbl ↦
      (tbl fd).flags ≠ 0 ∧ (tbl fd).fileOperations = some .rtc := by
  have hread : ∀ tbl : FdArray, (tbl fd).flags ≠ 0 ∧ (tbl fd).fileOperations = some .rtc →
      FdArray.read img .fail tbl fd n = (⟨0, []⟩, tbl) := by
    rintro tbl ⟨hflags, hops⟩
    rw [FdArray.read, if_neg (by rw [OutOfRange]; omega), Int.toNat_natCast, if_neg hflags, hops]
    rfl
  refine ⟨fun k tbl h hd ↦ ?_, fun k tbl h ↦ ?_, fun k tbl h ↦ ?_⟩
  · rw [driver_of_flags hlt h.1 h.2] at hd
    cases hd
  · rw [hread tbl h]
  · rw [hread tbl h]
    exact h

/-! ## The loop -/

section CopyLoop

variable {fd : Nat} {nbytes : Int} {prepare : Bytes → Int → Bytes × Int} {failed : String}
  {res : Nat → ReadResult} {P : Nat → FdArray → Prop} {emit : Nat → List UInt8} {k : Nat}
  {w : World} {tbl : FdArray}

/-- A round writes `emit` when it has read `r`. -/
def Emits (prepare : Bytes → Int → Bytes × Int) (r : ReadResult) (emit : List UInt8) : Prop :=
  0 < r.ret ∧ ∀ buf, -1 ≠ (prepare (fill buf r.stored) r.ret).2 ∧
    (List.range (prepare (fill buf r.stored) r.ret).2.toNat).map
      (prepare (fill buf r.stored) r.ret).1 = emit

/-- A read of the source. -/
theorem Source.world_read (src : Source w.img fd nbytes res P) (hP : P k tbl) :
    ∃ tbl', (w.setTbl tbl).read fd nbytes = (res k, w.setTbl tbl') ∧ P (k + 1) tbl' ∧
      (fd ≠ 1 → Console tbl → Console tbl') := by
  refine ⟨(FdArray.read w.img .fail tbl fd nbytes).2, ?_, src.next k tbl hP, fun hfd hc ↦ ?_⟩
  · rw [read_eq (src.driver k tbl hP), setTbl_img, setTbl_tbl, setTbl_setTbl, src.read k tbl hP]
  · exact hc.of_eq (FdArray.read_other (by omega))

/-- A round that goes on. -/
theorem copyRound_more (src : Source w.img fd nbytes res P) (hfd : fd ≠ 1) (hP : P k tbl)
    (hc : Console tbl) {out : List UInt8} (he : Emits prepare (res k) out) (buf : Bytes) :
    ∃ buf' tbl', copyRound fd nbytes prepare failed (buf, w.setTbl tbl) =
      .inr (buf', (w.print out).setTbl tbl') ∧ P (k + 1) tbl' ∧ Console tbl' := by
  obtain ⟨tbl', hread, hP', hc'⟩ := src.world_read hP
  obtain ⟨hpos, hemit⟩ := he
  obtain ⟨hret, hout⟩ := hemit buf
  refine ⟨(prepare (fill buf (res k).stored) (res k).ret).1, tbl', ?_, hP', hc' hfd hc⟩
  rw [copyRound]
  dsimp only
  rw [hread]
  dsimp only
  have hcon : Console (w.setTbl tbl').tbl := hc' hfd hc
  rw [if_neg (by omega), if_neg (by omega), write_one hcon]
  dsimp only
  rw [if_neg (Ne.symm hret), hout, setTbl_print]

/-- The round that leaves the loop. -/
theorem copyRound_done (src : Source w.img fd nbytes res P) (hfd : fd ≠ 1) (hP : P k tbl)
    (hc : Console tbl) (hend : (res k).ret = 0 ∨ (res k).ret = -1)
    (hne : 0 ∉ chars failed) (hlen : (chars failed).length < 2 ^ 32) (buf : Bytes) :
    ∃ tbl', copyRound fd nbytes prepare failed (buf, w.setTbl tbl) = .inl (some
      (if (res k).ret = 0 then (0, w.setTbl tbl')
       else (3, (w.print (chars failed)).setTbl tbl'))) := by
  obtain ⟨tbl', hread, -, hc'⟩ := src.world_read hP
  refine ⟨tbl', ?_⟩
  rw [copyRound]
  dsimp only
  rw [hread]
  dsimp only
  by_cases hzero : (res k).ret = 0
  · rw [if_pos hzero, if_pos hzero]
  · have hcon : Console (w.setTbl tbl').tbl := hc' hfd hc
    rw [if_neg hzero, if_neg hzero, if_pos (hend.resolve_left hzero),
      fdputs_message hcon _ hne hlen]
    rfl

/-- What a loop over a source prints and returns, which comes to read `n` after it has written
`out`. -/
def loopAnswer (failed : String) (r : ReadResult) (out : List UInt8) : Int × List UInt8 :=
  if r.ret = 0 then (0, out) else (3, out ++ chars failed)

/-- **The loop over a source.**  If the first `n` reads return something and the next one does not,
the loop ends, and it has written what it makes of those `n`. -/
theorem copyLoop (failed : String) (src : Source w.img fd nbytes res P) (hfd : fd ≠ 1)
    (hP : P 0 tbl)
    (hc : Console tbl) (n : Nat) (hmore : ∀ k, k < n → Emits prepare (res k) (emit k))
    (hend : (res n).ret = 0 ∨ (res n).ret = -1) (hne : 0 ∉ chars failed)
    (hlen : (chars failed).length < 2 ^ 32) (buf : Bytes) :
    ∃ tbl', Leaves (copyRound fd nbytes prepare failed) (buf, w.setTbl tbl) (some
      ((loopAnswer failed (res n) ((List.range n).flatMap emit)).1,
        (w.print (loopAnswer failed (res n) ((List.range n).flatMap emit)).2).setTbl tbl')) := by
  let I : Nat → Bytes × World → Prop := fun k s ↦
    ∃ tbl, s.2 = (w.print ((List.range k).flatMap emit)).setTbl tbl ∧ P k tbl ∧ Console tbl
  let Q : Option (Int × World) → Prop := fun b ↦ ∃ tbl', b = some
    ((loopAnswer failed (res n) ((List.range n).flatMap emit)).1,
      (w.print (loopAnswer failed (res n) ((List.range n).flatMap emit)).2).setTbl tbl')
  have hmore' : ∀ k, k < n → ∀ s, I k s →
      ∃ s', copyRound fd nbytes prepare failed s = .inr s' ∧ I (k + 1) s' := by
    rintro k hk ⟨buf, _⟩ ⟨tbl, rfl, hP, hc⟩
    obtain ⟨buf', tbl', hround, hP', hc'⟩ :=
      copyRound_more (w := w.print ((List.range k).flatMap emit)) src hfd hP hc (hmore k hk) buf
    refine ⟨_, hround, tbl', ?_, hP', hc'⟩
    rw [print_print, List.range_succ, List.flatMap_append, List.flatMap_singleton]
  have hdone : ∀ s, I n s → ∃ b, copyRound fd nbytes prepare failed s = .inl b ∧ Q b := by
    rintro ⟨buf, _⟩ ⟨tbl, rfl, hP, hc⟩
    obtain ⟨tbl', hround⟩ :=
      copyRound_done (w := w.print ((List.range n).flatMap emit)) src hfd hP hc hend hne hlen buf
    refine ⟨_, hround, tbl', ?_⟩
    rw [print_print, loopAnswer]
    split <;> rfl
  have hstart : I 0 (buf, w.setTbl tbl) :=
    ⟨tbl, by rw [List.range_zero, List.flatMap_nil, print_nil], hP, hc⟩
  obtain ⟨b, hleaves, tbl', rfl⟩ := exists_leaves n hmore' hdone hstart
  exact ⟨tbl', hleaves⟩

end CopyLoop

/-! ## What is read -/

/-- How many entries a reader of the directory comes to before an entry without a name: all that
there are slots for, if there is no such entry. -/
def numListed (img : Image) : Nat :=
  ((List.range (numDirEntries + 1)).find? fun k ↦ img.entryName k = []).getD (numDirEntries + 1)

theorem numListed_le (img : Image) : numListed img ≤ numDirEntries + 1 := by
  rw [numListed]
  cases hf : (List.range (numDirEntries + 1)).find? fun k ↦ img.entryName k = [] with
  | none => exact Nat.le_refl _
  | some k => exact (List.mem_range.mp (List.mem_of_find?_eq_some hf)).le

theorem entryName_ne_nil_of_lt {k : Nat} (h : k < numListed img) : img.entryName k ≠ [] := by
  have hk := h.trans_le (numListed_le img)
  rw [numListed] at h
  intro hnil
  cases hf : (List.range (numDirEntries + 1)).find? fun k ↦ img.entryName k = [] with
  | none => exact List.find?_eq_none.mp hf k (List.mem_range.mpr hk) (decide_eq_true hnil)
  | some j =>
      rw [hf, Option.getD_some] at h
      have hno := (List.find?_range_eq_some.mp hf).2.2 k h
      rw [hnil] at hno
      cases hno

theorem entryName_numListed (h : numListed img ≤ numDirEntries) :
    img.entryName (numListed img) = [] := by
  cases hf : (List.range (numDirEntries + 1)).find? fun k ↦ img.entryName k = [] with
  | none =>
      rw [numListed, hf, Option.getD_none] at h
      exact absurd h (by decide)
  | some j =>
      have hj := List.find?_some hf
      rw [numListed, hf, Option.getD_some]
      exact of_decide_eq_true hj

/-- The read behind the listed entries returns nothing, or fails. -/
theorem dirResult_numListed (img : Image) :
    (FdArray.dirResult img (numListed img)).ret =
      if numListed img ≤ numDirEntries then 0 else -1 := by
  rw [FdArray.dirResult]
  by_cases h : numListed img ≤ numDirEntries
  · rw [if_pos h, if_pos h, entryName_numListed h]
    rfl
  · rw [if_neg h, if_neg h]
    rfl

/-- The read of an entry with a name. -/
theorem dirResult_of_lt {k : Nat} (h : k < numListed img) :
    FdArray.dirResult img k =
      ⟨(img.entryName k).length, strncpy (img.fileName k) fileNameSize⟩ ∧
      0 < (img.entryName k).length ∧ (img.entryName k).length ≤ fileNameSize ∧
      (strncpy (img.fileName k) fileNameSize).length = fileNameSize ∧
      (strncpy (img.fileName k) fileNameSize).take (img.entryName k).length = img.entryName k := by
  have hk : k ≤ numDirEntries := Nat.lt_succ_iff.mp (h.trans_le (numListed_le img))
  have hle : (img.entryName k).length ≤ fileNameSize := Image.length_entryName_le k
  have heq : strncpy (img.fileName k) fileNameSize = img.entryName k ++
      List.replicate (fileNameSize - (img.entryName k).length) 0 := strncpy_eq _ _
  refine ⟨by rw [FdArray.dirResult, if_pos hk],
    List.length_pos_iff.mpr (entryName_ne_nil_of_lt h), hle, ?_, ?_⟩
  · rw [heq, List.length_append, List.length_replicate]
    omega
  · rw [heq, List.take_left']
    rfl

/-- `cat` writes a piece as it is. -/
theorem emits_cat {r : ReadResult} {out : List UInt8} (hret : r.ret = out.length)
    (hpos : 0 < out.length) (hle : out.length ≤ r.stored.length)
    (htake : r.stored.take out.length = out) : Emits (fun buf cnt ↦ (buf, cnt)) r out := by
  refine ⟨by omega, fun buf ↦ ⟨by dsimp only; omega, ?_⟩⟩
  dsimp only
  rw [hret, Int.toNat_natCast, map_fill buf hle, htake]

/-- `ls` writes a newline behind it. -/
theorem emits_ls {r : ReadResult} {out : List UInt8} (hret : r.ret = out.length)
    (hpos : 0 < out.length) (hle : out.length ≤ r.stored.length)
    (htake : r.stored.take out.length = out) :
    Emits (fun buf cnt ↦ (Function.update buf cnt.toNat 0x0a, cnt + 1)) r (out ++ [0x0a]) := by
  refine ⟨by omega, fun buf ↦ ⟨by dsimp only; omega, ?_⟩⟩
  dsimp only
  have hcount : (r.ret + 1).toNat = out.length + 1 := by omega
  have hbefore : (List.range out.length).map
      (Function.update (fill buf r.stored) out.length 0x0a) =
      (List.range out.length).map (fill buf r.stored) := by
    refine List.map_congr_left fun i hi ↦ Function.update_of_ne ?_ _ _
    exact (List.mem_range.mp hi).ne
  rw [hcount, hret, Int.toNat_natCast, List.range_succ, List.map_append, hbefore,
    map_fill buf hle, htake, List.map_singleton, Function.update_self]

/-- The pieces of a list, together. -/
theorem flatMap_pieces (file : List UInt8) (c m : Nat) :
    ((List.range m).flatMap fun k ↦ (file.drop (c * k)).take c) = file.take (c * m) := by
  induction m with
  | zero => rfl
  | succ m ih =>
      rw [List.range_succ, List.flatMap_append, List.flatMap_singleton, ih, Nat.mul_succ,
        List.take_add]

/-! ## What the programs print -/

/-- What a reader of the directory prints and returns. -/
def dirAnswer (img : Image) (failed : String) (emit : Nat → List UInt8) : Int × List UInt8 :=
  let out := (List.range (numListed img)).flatMap emit
  if numListed img ≤ numDirEntries then (0, out) else (3, out ++ chars failed)

/-- What `cat` prints for a name, and what it returns. -/
def catAnswer (img : Image) (name : List UInt8) : Int × List UInt8 :=
  match img.readDentryByName (Bytes.ofList name) with
  | none => (2, chars "file not found\n")
  | some d =>
      if d.fileType = 0 then (0, [])
      else if d.fileType = 1 then dirAnswer img "file read failed\n" img.entryName
      else (0, img.contents d.inodeNum)

/-- What `ls` prints, and what it returns. -/
def lsAnswer (img : Image) : Int × List UInt8 :=
  match img.readDentryByName dotName with
  | none => (2, chars "directory open failed\n")
  | some _ => dirAnswer img "directory entry read failed\n" fun k ↦ img.entryName k ++ [0x0a]

/-- A loop that is left, as the programs run it. -/
theorem rounds_elim {A B : Type} {f : A → Option B ⊕ A} {a : A} {b : Option B}
    (h : Leaves f a b) : ∃ N, ∀ n, N ≤ n → (rounds f n a).elim id (fun _ ↦ none) = b := by
  obtain ⟨N, hN⟩ := h
  exact ⟨N, fun n hn ↦ by rw [rounds_mono hN hn]; rfl⟩

/-- The name that is looked up is the string in the buffer. -/
theorem readDentryByName_congr {s s' : Bytes} {l : List UInt8} (h : s.Holds l) (h' : s'.Holds l)
    (hl : l.length + 1 < 2 ^ 32) : img.readDentryByName s = img.readDentryByName s' := by
  have hs := h.strlen_eq (Nat.lt_of_succ_lt hl)
  have hs' := h'.strlen_eq (Nat.lt_of_succ_lt hl)
  by_cases hle : l.length ≤ fileNameSize
  · have hcut : cstr s fileNameSize = cstr s' fileNameSize := by
      rw [cstr_eq_cstring (hs.trans_le hle) (by decide), h.cstring_eq hl,
        cstr_eq_cstring (hs'.trans_le hle) (by decide), h'.cstring_eq hl]
    rw [Image.readDentryByName_eq (hs.trans_le hle), Image.readDentryByName_eq (hs'.trans_le hle),
      hcut]
  · rw [Image.readDentryByName, Image.readDentryByName, hs, hs', if_pos (Nat.not_le.mp hle),
      if_pos (Nat.not_le.mp hle)]

theorem firstClosed_create (junk : FdArray) : (FdArray.create junk).firstClosed = some 2 :=
  FdArray.firstClosed_eq_some.mpr
    ⟨Nat.le_refl 2, by decide, rfl, fun _ h h' ↦ absurd h' (Nat.not_lt.mpr h)⟩

/-- `open` by a program that has not opened anything. -/
theorem openFd_create {w : World} {junk : FdArray} (hfresh : w.tbl = FdArray.create junk)
    {filename : Bytes} {d : Dentry} (hd : w.img.readDentryByName filename = some d)
    (htype : d.fileType ≤ 2) :
    ∃ tbl, w.openFd filename = (2, w.setTbl tbl) ∧ Console tbl ∧
      FdArray.openFd w.img w.tbl filename = (((2 : Nat) : Int), tbl) := by
  have hfirst : w.tbl.firstClosed = some 2 := by rw [hfresh, firstClosed_create]
  have hc : Console w.tbl := hfresh ▸ console_create junk
  have hopen : ∃ slot, FdArray.openFd w.img w.tbl filename =
      (((2 : Nat) : Int), Function.update w.tbl 2 slot) := by
    have hcases : d.fileType = 0 ∨ d.fileType = 1 ∨ d.fileType = 2 := by omega
    rcases hcases with h | h | h
    · exact ⟨_, by simp only [FdArray.openFd, hfirst, hd, h, FdArray.setOpen]; rfl⟩
    · exact ⟨_, by simp only [FdArray.openFd, hfirst, hd, h, FdArray.setOpen]; rfl⟩
    · exact ⟨_, by simp only [FdArray.openFd, hfirst, hd, h, FdArray.setOpen]; rfl⟩
  obtain ⟨slot, hopen⟩ := hopen
  refine ⟨Function.update w.tbl 2 slot, ?_, hc.of_eq (Function.update_of_ne (by decide) _ _), hopen⟩
  rw [World.openFd, hopen]
  rfl

/-- `open` of a name that is not in the directory. -/
theorem openFd_none {w : World} {filename : Bytes} (hd : w.img.readDentryByName filename = none) :
    w.openFd filename = (-1, w) := by
  have hopen : FdArray.openFd w.img w.tbl filename = (-1, w.tbl) := by
    rw [FdArray.openFd, hd]
    split <;> rfl
  rw [World.openFd, hopen]

section Loops

variable {w : World} {fd : Nat} {d : Dentry} {filename : Bytes} {tbl₀ tbl : FdArray}
  {failed : String}

/-- The loop over the directory. -/
theorem dirLoop {nbytes : Int} {prepare : Bytes → Int → Bytes × Int} {emit : Nat → List UInt8}
    (hnbytes : fileNameSize ≤ nbytes) (hfd : fd ≠ 1) (hdir : FdArray.OpenDir tbl fd 0)
    (hc : Console tbl)
    (hemit : ∀ k, k < numListed w.img → Emits prepare (FdArray.dirResult w.img k) (emit k))
    (hne : 0 ∉ chars failed) (hlen : (chars failed).length < 2 ^ 32) (buf : Bytes) :
    ∃ tbl', Leaves (copyRound fd nbytes prepare failed) (buf, w.setTbl tbl) (some
      ((dirAnswer w.img failed emit).1,
        (w.print (dirAnswer w.img failed emit).2).setTbl tbl')) := by
  have hend := dirResult_numListed w.img
  have hanswer : loopAnswer failed (FdArray.dirResult w.img (numListed w.img))
      ((List.range (numListed w.img)).flatMap emit) = dirAnswer w.img failed emit := by
    rw [loopAnswer, dirAnswer, hend]
    by_cases hle : numListed w.img ≤ numDirEntries
    · rw [if_pos hle, if_pos hle, if_pos rfl]
    · rw [if_neg hle, if_neg hle, if_neg (by decide)]
  rw [← hanswer]
  refine copyLoop failed (source_dir hnbytes) hfd hdir hc _ hemit ?_ hne hlen buf
  rw [hend]
  split
  · exact Or.inl rfl
  · exact Or.inr rfl

/-- The loop of `cat` over a regular file. -/
theorem fileLoop (hwf : w.img.WellFormed) (hfd : fd ≠ 1)
    (hd : w.img.readDentryByName filename = some d) (htype : d.fileType = 2)
    (hopen : FdArray.openFd w.img tbl₀ filename = ((fd : Int), tbl)) (hc : Console tbl)
    (buf : Bytes) :
    ∃ tbl', Leaves (catRound fd) (buf, w.setTbl tbl)
      (some (0, (w.print (w.img.contents d.inodeNum)).setTbl tbl')) := by
  obtain ⟨-, e, he, -, -, het, hei⟩ := Image.exists_entry_of_readDentryByName hd
  have hregular : w.img.fileType e = 2 := het.symm.trans htype
  have hinode : d.inodeNum ≤ w.img.numInodes := hei ▸ Nat.le_of_lt (hwf.inodeNum_lt e he hregular)
  have hlen : w.img.inodeLength d.inodeNum ≤ numDataBlocks * dataBlockSize :=
    hei ▸ hwf.length_le e he hregular
  have hstart := FdArray.OpenAt.openFd hd htype hopen
  generalize d.inodeNum = inode at *
  have hcontents := Image.length_contents hlen
  let rounds := (w.img.inodeLength inode + 1023) / 1024
  have hlast : filePiece (w.img.contents inode) 1024 rounds = ⟨0, []⟩ := by
    rw [filePiece, List.drop_eq_nil_of_le (by omega)]
    rfl
  have hwritten : (List.range rounds).flatMap
      (fun k ↦ ((w.img.contents inode).drop (1024 * k)).take 1024) = w.img.contents inode := by
    rw [flatMap_pieces, List.take_of_length_le (by omega)]
  have hloop := copyLoop (w := w) "file read failed\n"
    (source_file (n := 1024) hinode hlen (by decide)) hfd
    (by rwa [Nat.mul_zero, Nat.zero_min]) hc rounds
    (fun k hk ↦ emits_cat rfl ?_ (Nat.le_refl _) (List.take_length)) (Or.inl (by rw [hlast]))
    (by decide) (by decide) buf
  · rw [hwritten, hlast] at hloop
    exact hloop
  · rw [List.length_take, List.length_drop]
    omega

/-- The loop of `cat` over the clock. -/
theorem rtcLoop (hfd : fd ≠ 1) (hd : w.img.readDentryByName filename = some d)
    (htype : d.fileType = 0) (hopen : FdArray.openFd w.img tbl₀ filename = ((fd : Int), tbl))
    (hc : Console tbl) (buf : Bytes) :
    ∃ tbl', Leaves (catRound fd) (buf, w.setTbl tbl) (some (0, w.setTbl tbl')) := by
  obtain ⟨j, hf⟩ := FdArray.exists_firstClosed hopen
  simp only [FdArray.openFd, hf, hd, htype, Prod.mk.injEq, Int.natCast_inj] at hopen
  obtain ⟨rfl, rfl⟩ := hopen
  have hslot : (tbl₀.setOpen j 0 .rtc j).flags ≠ 0 ∧
      (tbl₀.setOpen j 0 .rtc j).fileOperations = some .rtc := by
    rw [FdArray.setOpen, Function.update_self]
    exact ⟨Nat.one_ne_zero, rfl⟩
  have hnone : ∀ k, k < 0 → Emits (fun buf cnt ↦ (buf, cnt)) ⟨0, []⟩ [] :=
    fun k hk ↦ absurd hk (Nat.not_lt_zero k)
  obtain ⟨tbl', hloop⟩ := copyLoop (w := w) "file read failed\n"
    (source_rtc (FdArray.firstClosed_eq_some.mp hf).2.1 1024) hfd hslot hc 0 hnone (Or.inl rfl)
    (by decide) (by decide) buf
  have hanswer : loopAnswer "file read failed\n" ⟨0, []⟩ [] = (0, []) := rfl
  rw [List.range_zero, List.flatMap_nil, hanswer] at hloop
  dsimp only at hloop
  rw [print_nil] at hloop
  exact ⟨tbl', hloop⟩

end Loops

/-- **What `cat` does.**  Run as a fresh process on a well-formed image, with a name for its
argument, it ends.  It prints the contents of a regular file, the names in a directory up to the
first empty one, and nothing of the clock; a name that is not there, and a directory without an
empty entry, give a message. -/
theorem cat_answer (w : World) (hwf : w.img.WellFormed)
    (htypes : ∀ i, i < w.img.numDir → w.img.fileType i ≤ 2) (junk : FdArray)
    (hfresh : w.tbl = FdArray.create junk) (name : List UInt8) (hargs : w.args.Holds name)
    (hlen : name.length < argsArrSize) (buf : Bytes) :
    ∃ N tbl, ∀ n, N ≤ n → cat n buf w =
      some ((catAnswer w.img name).1, (w.print (catAnswer w.img name).2).setTbl tbl) := by
  have hc : Console w.tbl := hfresh ▸ console_create junk
  have hbuf : (getargs w.args buf 1024).buf.Holds name :=
    getargs_holds hargs hlen buf (by simp only [argsArrSize] at hlen; omega)
  have hname : w.img.readDentryByName (getargs w.args buf 1024).buf =
      w.img.readDentryByName (Bytes.ofList name) :=
    readDentryByName_congr hbuf (Bytes.holds_ofList hbuf.1)
      (by simp only [argsArrSize] at hlen; omega)
  have hargs0 : ¬ 0 ≠ (getargs w.args buf 1024).ret := by simp [getargs]
  simp only [cat, if_neg hargs0]
  generalize (getargs w.args buf 1024).buf = filename at *
  cases hd : w.img.readDentryByName (Bytes.ofList name) with
  | none =>
      rw [hd] at hname
      refine ⟨0, w.tbl, fun n _ ↦ ?_⟩
      rw [openFd_none hname, if_pos rfl, fdputs_message hc _ (by decide) (by decide), catAnswer, hd]
      rfl
  | some d =>
      rw [hd] at hname
      have htype : d.fileType ≤ 2 := by
        obtain ⟨-, i, hi, -, -, ht, -⟩ := Image.exists_entry_of_readDentryByName hname
        exact ht ▸ htypes i hi
      obtain ⟨tbl, hopened, hc', hopen⟩ := openFd_create hfresh hname htype
      rw [hopened]
      dsimp only
      simp only [if_neg (show ¬ (-1 : Int) = 2 by decide)]
      have hloop : ∃ tbl', Leaves (catRound 2) (filename, w.setTbl tbl) (some
          ((catAnswer w.img name).1, (w.print (catAnswer w.img name).2).setTbl tbl')) := by
        rw [catAnswer, hd]
        dsimp only
        split
        · rename_i hrtc
          dsimp only
          rw [print_nil]
          exact rtcLoop (show (2 : Nat) ≠ 1 by decide) hname hrtc hopen hc' filename
        · split
          · rename_i hdir
            refine dirLoop (by decide) (show (2 : Nat) ≠ 1 by decide)
              (FdArray.OpenDir.openFd hname hdir hopen) hc' (fun k hk ↦ ?_) (by decide)
              (by decide) _
            obtain ⟨heq, hpos, hle, hlen, htake⟩ := dirResult_of_lt hk
            rw [heq]
            exact emits_cat rfl hpos (hle.trans_eq hlen.symm) htake
          · exact fileLoop hwf (show (2 : Nat) ≠ 1 by decide) hname (by omega) hopen hc' filename
      obtain ⟨tbl', hleaves⟩ := hloop
      obtain ⟨N, hN⟩ := rounds_elim hleaves
      exact ⟨N, tbl', hN⟩

/-- A process of a program that has just been started, with an argument. -/
def fresh (img : Image) (args : Bytes) : World :=
  ⟨img, args, FdArray.create fun _ ↦ ⟨none, 0, 0, 0, 0⟩, Tty.boot.terminalOpen, fun _ ↦ [], 0,
    [], []⟩

/-- The one file of a small image. -/
theorem cat_answer_shell :
    (catAnswer tinyImage [0x73, 0x68, 0x65, 0x6c, 0x6c]).1 = 0 ∧
      ∃ N tbl, ∀ n, N ≤ n → cat n (fun _ ↦ 0) (fresh tinyImage shellName) =
        some ((catAnswer tinyImage [0x73, 0x68, 0x65, 0x6c, 0x6c]).1,
          ((fresh tinyImage shellName).print
            (catAnswer tinyImage [0x73, 0x68, 0x65, 0x6c, 0x6c]).2).setTbl tbl) := by
  refine ⟨by decide, cat_answer (fresh tinyImage shellName) FdArray.tinyImage_wellFormed
    tinyImage_fileType_le _ rfl _ (Bytes.holds_ofList (List.forall_mem_ne'.mpr (by decide)))
    (by decide) _⟩

/-- **What `ls` does.**  Run as a fresh process on an image whose `"."` is a directory, it ends, and
prints the names up to the first empty one, each on a line of its own; if there is no empty entry,
it reads on behind the last slot and fails. -/
theorem ls_answer (w : World)
    (hdot : ∀ d, w.img.readDentryByName dotName = some d → d.fileType = 1) (junk : FdArray)
    (hfresh : w.tbl = FdArray.create junk) (buf : Bytes) :
    ∃ N tbl, ∀ n, N ≤ n → ls n buf w =
      some ((lsAnswer w.img).1, (w.print (lsAnswer w.img).2).setTbl tbl) := by
  have hc : Console w.tbl := hfresh ▸ console_create junk
  simp only [ls]
  cases hd : w.img.readDentryByName dotName with
  | none =>
      refine ⟨0, w.tbl, fun n _ ↦ ?_⟩
      rw [openFd_none hd, if_pos rfl, fdputs_message hc _ (by decide) (by decide), lsAnswer, hd]
      rfl
  | some d =>
      have hdir := hdot d hd
      obtain ⟨tbl, hopened, hc', hopen⟩ := openFd_create hfresh hd (by omega)
      rw [hopened]
      dsimp only
      simp only [if_neg (show ¬ (-1 : Int) = 2 by decide)]
      obtain ⟨tbl', hleaves⟩ : ∃ tbl', Leaves (lsRound 2) (buf, w.setTbl tbl) (some
          ((lsAnswer w.img).1, (w.print (lsAnswer w.img).2).setTbl tbl')) := by
        rw [lsAnswer, hd]
        refine dirLoop (by decide) (show (2 : Nat) ≠ 1 by decide)
          (FdArray.OpenDir.openFd hd hdir hopen) hc' (fun k hk ↦ ?_) (by decide) (by decide) _
        obtain ⟨heq, hpos, hle, hlen, htake⟩ := dirResult_of_lt hk
        rw [heq]
        exact emits_ls rfl hpos (hle.trans_eq hlen.symm) htake
      obtain ⟨N, hN⟩ := rounds_elim hleaves
      exact ⟨N, tbl', hN⟩

/-- The entry of a deleted file is listed too. -/
theorem ls_answer_stale :
    lsAnswer FdArray.dotImage = (0, [0x2e, 0x0a, 0x78, 0x0a]) ∧
      ∃ N tbl, ∀ n, N ≤ n → ls n (fun _ ↦ 0) (fresh FdArray.dotImage fun _ ↦ 0) =
        some ((lsAnswer FdArray.dotImage).1, ((fresh FdArray.dotImage fun _ ↦ 0).print
          (lsAnswer FdArray.dotImage).2).setTbl tbl) := by
  refine ⟨by decide, ls_answer (fresh FdArray.dotImage fun _ ↦ 0) (fun d hd ↦ ?_) _ rfl _⟩
  have hentry : FdArray.dotImage.readDentryByName dotName =
      some ⟨strncpy dotName fileNameSize, 1, 0⟩ := by decide
  rw [show (fresh FdArray.dotImage fun _ ↦ 0).img = FdArray.dotImage from rfl, hentry] at hd
  rw [← Option.some.inj hd]

end World

end Illinix
