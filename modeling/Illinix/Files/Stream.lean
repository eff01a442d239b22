import Illinix.Files.Allocator

/-!
# Files are read as streams

A regular file is opened at its start, and the reads of the descriptor deliver its
contents in order, whatever other calls the program makes in between.  The reads of
one opening are collected by `reads`; the specification is `Base.pieces`, which cuts
the contents into the sizes asked for.
-/

namespace Illinix

/-- The regular files of the image are stored as the format says. -/
structure Image.WellFormed (img : Image) : Prop where
  inodeNum_lt : ∀ i, i < img.numDir → img.fileType i = 2 → img.inodeNum i < img.numInodes
  length_le : ∀ i, i < img.numDir → img.fileType i = 2 →
    img.inodeLength (img.inodeNum i) ≤ numDataBlocks * dataBlockSize
  blockNum_lt : ∀ i, i < img.numDir → img.fileType i = 2 →
    ∀ k, k * dataBlockSize < img.inodeLength (img.inodeNum i) →
      img.dataBlockNum (img.inodeNum i) k < img.numDb

/-- The calls of a program that reads: `open`, `close`, and `read` of a number of bytes
that is not negative. -/
def FileCall.IsReader : FileCall → Prop
  | .openFd _ => True
  | .close _ => True
  | .read _ nbytes _ => 0 ≤ nbytes ∧ nbytes < 2 ^ 31
  | .write _ _ _ => False

namespace FdArray

variable {img : Image} {tbl tbl' : FdArray}

/-- The reads of descriptor `i` in a run: how much each asked for, and its result. -/
def reads (img : Image) (i : Nat) : FdArray → List FileCall → List (Nat × ReadResult)
  | _, [] => []
  | tbl, c :: cs =>
      let rest := (next img tbl c).elim [] fun tbl' ↦ reads img i tbl' cs
      match c with
      | .read fd nbytes dev =>
          if fd = i then (nbytes.toNat, (read img dev tbl fd nbytes).1) :: rest else rest
      | _ => rest

/-- Descriptor `i` is open on a regular file, at a place in it. -/
structure OpenAt (tbl : FdArray) (i inode pos : Nat) : Prop where
  lt : i < fdArraySize
  flags : (tbl i).flags = 1
  ops : (tbl i).fileOperations = some .file
  inodeNum : (tbl i).inodeNum = inode
  filePos : (tbl i).filePos = pos

namespace OpenAt

variable {i inode pos : Nat}

theorem of_eq (h : OpenAt tbl i inode pos) (hi : tbl' i = tbl i) : OpenAt tbl' i inode pos :=
  ⟨h.lt, by rw [hi, h.flags], by rw [hi, h.ops], by rw [hi, h.inodeNum], by rw [hi, h.filePos]⟩

/-- `open` on a regular file. -/
theorem openFd {filename : Bytes} {d : Dentry} (hd : img.readDentryByName filename = some d)
    (ht : d.fileType = 2) (h : openFd img tbl filename = ((i : Int), tbl')) :
    OpenAt tbl' i d.inodeNum 0 := by
  obtain ⟨j, hf⟩ := exists_firstClosed h
  simp only [FdArray.openFd, hf, hd, ht, Prod.mk.injEq, Int.natCast_inj] at h
  obtain ⟨rfl, rfl⟩ := h
  refine ⟨(firstClosed_eq_some.mp hf).2.1, ?_, ?_, ?_, ?_⟩ <;> rw [setOpen, Function.update_self]

/-- A later `open` takes another descriptor. -/
theorem openFd_other (h : OpenAt tbl i inode pos) (filename : Bytes) :
    OpenAt (FdArray.openFd img tbl filename).2 i inode pos := by
  apply h.of_eq
  rw [FdArray.openFd]
  split
  · rfl
  · rename_i j hj
    have hne : i ≠ j := by
      rintro rfl
      exact absurd ((firstClosed_eq_some.mp hj).2.2.1.symm.trans h.flags) (by decide)
    split
    · rfl
    · split
      · exact Function.update_of_ne hne _ _
      · exact Function.update_of_ne hne _ _
      · exact Function.update_of_ne hne _ _
      · rfl

theorem close_other (h : OpenAt tbl i inode pos) {fd : Int} (hne : fd ≠ i) :
    OpenAt (FdArray.close tbl fd).2 i inode pos := by
  apply h.of_eq
  rw [FdArray.close]
  split
  · rfl
  · split
    · rfl
    · exact Function.update_of_ne (by omega) _ _

end OpenAt

/-- **Reading one descriptor moves no other**, also where the number passed is not a
descriptor. -/
theorem read_other {dev : ReadResult} {fd nbytes : Int} {j : Nat} (h : (j : Int) ≠ fd) :
    (read img dev tbl fd nbytes).2 j = tbl j := by
  by_cases hr : OutOfRange fd
  · rw [read_outOfRange hr]
  · refine read_of_ne ?_
    simp only [OutOfRange, not_or, Int.not_lt] at hr
    omega

/-- One read of an open regular file delivers the next piece of its contents. -/
theorem OpenAt.read {i inode pos : Nat} (h : OpenAt tbl i inode pos)
    (hi : inode ≤ img.numInodes) (hlen : img.inodeLength inode ≤ numDataBlocks * dataBlockSize)
    (hpos : pos ≤ img.inodeLength inode) {nbytes : Int} (hn : 0 ≤ nbytes ∧ nbytes < 2 ^ 31)
    (dev : ReadResult) :
    let piece := ((img.contents inode).drop pos).take nbytes.toNat
    (FdArray.read img dev tbl i nbytes).1 = ⟨piece.length, piece⟩ ∧
      OpenAt (FdArray.read img dev tbl i nbytes).2 i inode (pos + piece.length) ∧
      pos + piece.length ≤ img.inodeLength inode := by
  intro piece
  have hr : ¬ OutOfRange (i : Int) := by
    have hlt := h.lt
    simp only [OutOfRange, fdArraySize] at hlt ⊢
    omega
  have hflags : (tbl (Int.toNat i)).flags ≠ 0 := by
    rw [Int.toNat_natCast, h.flags]
    decide
  have hbytes : toUInt32 nbytes = nbytes.toNat := by
    rw [toUInt32, Int.emod_eq_of_lt hn.1 (by omega)]
  have hdata : img.readData (tbl i).inodeNum (tbl i).filePos (toUInt32 nbytes) = some piece := by
    rw [h.inodeNum, h.filePos, hbytes]
    exact Image.readData_eq hi hlen _ _
  have hle : pos + piece.length ≤ img.inodeLength inode := by
    have hc := Image.length_contents hlen
    simp only [piece, List.length_take, List.length_drop, hc]
    omega
  have hword : toUInt32 ((pos : Int) + piece.length) = pos + piece.length := by
    simp only [numDataBlocks, dataBlockSize] at hlen
    rw [toUInt32, Int.emod_eq_of_lt (by omega) (by omega)]
    omega
  have hread : FdArray.read img dev tbl i nbytes = (⟨piece.length, piece⟩,
      Function.update tbl i { tbl i with filePos := pos + piece.length }) := by
    rw [FdArray.read, if_neg hr, if_neg hflags, Int.toNat_natCast, h.ops]
    dsimp only [driverRead]
    rw [fileRead, if_neg hr, Int.toNat_natCast]
    dsimp only
    rw [hdata]
    dsimp only
    rw [h.filePos, hword]
  rw [hread]
  refine ⟨rfl, ⟨h.lt, ?_, ?_, ?_, ?_⟩, hle⟩ <;> dsimp only <;> rw [Function.update_self]
  · exact h.flags
  · exact h.ops
  · exact h.inodeNum

/-- The reads of an opening are the pieces of the rest of the file. -/
theorem OpenAt.reads_eq {i inode pos : Nat} (hi : inode ≤ img.numInodes)
    (hlen : img.inodeLength inode ≤ numDataBlocks * dataBlockSize) (calls : List FileCall)
    (hcalls : ∀ c ∈ calls, c.IsReader ∧ c ≠ .close i) (h : OpenAt tbl i inode pos)
    (hpos : pos ≤ img.inodeLength inode) :
    (reads img i tbl calls).map Prod.snd =
      (Base.pieces ((img.contents inode).drop pos) ((reads img i tbl calls).map Prod.fst)).map
        fun piece ↦ ⟨piece.length, piece⟩ := by
  induction calls generalizing tbl pos with
  | nil => rfl
  | cons c calls ih =>
      have hrest : ∀ c' ∈ calls, c'.IsReader ∧ c' ≠ .close i :=
        fun c' hc' ↦ hcalls c' (List.mem_cons_of_mem _ hc')
      obtain ⟨hreader, hclose⟩ := hcalls c List.mem_cons_self
      cases c with
      | openFd filename => exact ih hrest (h.openFd_other filename) hpos
      | close fd =>
          refine ih hrest (h.close_other ?_) hpos
          rintro rfl
          exact hclose rfl
      | write fd nbytes dev => exact hreader.elim
      | read fd nbytes dev =>
          by_cases hfd : fd = i
          · subst hfd
            obtain ⟨hres, hopen, hle⟩ := h.read hi hlen hpos hreader dev
            have hih := ih hrest hopen hle
            simp only [reads, if_pos, List.map_cons, Base.pieces, hres]
            rw [← List.drop_drop, Base.drop_length_take] at hih
            exact congrArg _ hih
          · have hother : OpenAt (FdArray.read img dev tbl fd nbytes).2 i inode pos :=
              h.of_eq (read_other (Ne.symm hfd))
            simp only [reads, if_neg hfd]
            exact ih hrest hother hpos

/-- Calls that only read never get stuck. -/
theorem exec_readers (img : Image) (calls : List FileCall) (hcalls : ∀ c ∈ calls, c.IsReader)
    (tbl : FdArray) : ∃ tbl', Base.exec (next img) tbl calls = some tbl' := by
  induction calls generalizing tbl with
  | nil => exact ⟨tbl, rfl⟩
  | cons c calls ih =>
      have hrest : ∀ c' ∈ calls, c'.IsReader := fun c' hc' ↦ hcalls c' (List.mem_cons_of_mem _ hc')
      have hreader := hcalls c List.mem_cons_self
      cases c with
      | openFd filename => exact ih hrest _
      | close fd => exact ih hrest _
      | read fd nbytes dev => exact ih hrest _
      | write fd nbytes dev => exact hreader.elim

/-- What the reads of one opening deliver of a file with the given contents. -/
structure IsStream (file : List UInt8) (rs : List (Nat × ReadResult)) : Prop where
  /-- Together, as many bytes from the start of the file as were asked for. -/
  delivered : (rs.map fun r ↦ r.2.stored).flatten =
    file.take (min (rs.map Prod.fst).sum file.length)
  /-- Each result is the number of bytes delivered. -/
  ret_eq : ∀ r ∈ rs, r.2.ret = r.2.stored.length
  /-- A read after the end delivers nothing. -/
  at_end : ∀ rs₁ r rs₂, rs = rs₁ ++ r :: rs₂ →
    (rs₁.map fun r ↦ r.2.stored).flatten.length = file.length → r.2 = ⟨0, []⟩

theorem stored_eq_pieces {file : List UInt8} {rs : List (Nat × ReadResult)}
    (h : rs.map Prod.snd = (Base.pieces file (rs.map Prod.fst)).map
      fun piece ↦ ⟨piece.length, piece⟩) :
    (rs.map fun r ↦ r.2.stored) = Base.pieces file (rs.map Prod.fst) := by
  have hmap := congrArg (List.map ReadResult.stored) h
  simpa only [List.map_map, Function.comp_def, List.map_id'] using hmap

/-- Reads that return the pieces of a file are a stream of it. -/
theorem isStream_of_pieces {file : List UInt8} {rs : List (Nat × ReadResult)}
    (h : rs.map Prod.snd = (Base.pieces file (rs.map Prod.fst)).map
      fun piece ↦ ⟨piece.length, piece⟩) : IsStream file rs where
  delivered := by
    rw [stored_eq_pieces h, Base.flatten_pieces, ← List.take_eq_take_min]
  ret_eq r hr := by
    have hmem : r.2 ∈ rs.map Prod.snd := List.mem_map_of_mem hr
    rw [h] at hmem
    obtain ⟨piece, _, hpiece⟩ := List.mem_map.mp hmem
    rw [← hpiece]
  at_end rs₁ r rs₂ hsplit hend := by
    subst hsplit
    simp only [List.map_append, List.map_cons, Base.pieces_append, Base.pieces] at h
    obtain ⟨h₁, h₂⟩ := List.append_inj h (by
      rw [List.length_map, List.length_map, Base.length_pieces, List.length_map])
    obtain ⟨hr, _⟩ := List.cons.inj h₂
    rw [stored_eq_pieces h₁, Base.flatten_pieces, List.length_take] at hend
    rw [hr, List.drop_eq_nil_of_le (by omega), List.take_nil]
    rfl

/-- **Files are read as streams.**  Take any run of `open`, `close` and `read` on a
well-formed image, and an `open` in it that returns descriptor `i` for a regular file.
The reads of `i` from there on, up to its `close`, are a stream of the file's contents.
Reading a descriptor moves no other one. -/
theorem file_streams (img : Image) (hwf : img.WellFormed) (junk : FdArray)
    (calls later : List FileCall) (filename : Bytes) (hcalls : ∀ c ∈ calls, c.IsReader)
    (hlater : ∀ c ∈ later, c.IsReader) :
    ∃ tbl, Base.exec (next img) (create junk) calls = some tbl ∧
      (∀ (i : Nat) (d : Dentry) (tbl' : FdArray),
        img.readDentryByName filename = some d → d.fileType = 2 →
        openFd img tbl filename = ((i : Int), tbl') → (∀ c ∈ later, c ≠ .close i) →
        IsStream (img.contents d.inodeNum) (reads img i tbl' later)) ∧
      ∀ (dev : ReadResult) (fd nbytes : Int) (j : Nat), (j : Int) ≠ fd →
        (read img dev tbl fd nbytes).2 j = tbl j := by
  obtain ⟨tbl, hexec⟩ := exec_readers img calls hcalls (create junk)
  refine ⟨tbl, hexec, fun i d tbl' hd ht hopen hclose ↦ ?_, fun dev fd nbytes j hj ↦ read_other hj⟩
  obtain ⟨_, e, he, _, _, het, hei⟩ := Image.exists_entry_of_readDentryByName hd
  have hregular : img.fileType e = 2 := het.symm.trans ht
  have hinode : d.inodeNum ≤ img.numInodes := by
    rw [hei]
    exact Nat.le_of_lt (hwf.inodeNum_lt e he hregular)
  have hlen : img.inodeLength d.inodeNum ≤ numDataBlocks * dataBlockSize := by
    rw [hei]
    exact hwf.length_le e he hregular
  exact isStream_of_pieces ((OpenAt.openFd hd ht hopen).reads_eq hinode hlen later
    (fun c hc ↦ ⟨hlater c hc, hclose c hc⟩) (Nat.zero_le _))

theorem tinyImage_wellFormed : tinyImage.WellFormed where
  inodeNum_lt := by decide
  length_le := by decide
  blockNum_lt i hi ht k hk := by
    have hi0 : i = 0 := Nat.lt_one_iff.mp hi
    subst hi0
    have hk0 : k = 0 := by
      have hlen : tinyImage.inodeLength (tinyImage.inodeNum 0) = 40 := by decide
      rw [hlen] at hk
      simp only [dataBlockSize] at hk
      omega
    subst hk0
    decide

/-- Two openings of one file, read alternately. -/
theorem file_streams_two_openings :
    ∃ tbl tbl', Base.exec (next tinyImage) (create fun _ ↦ ⟨none, 0, 0, 0, 0⟩)
        [.openFd shellName, .read 2 7 .fail] = some tbl ∧
      openFd tinyImage tbl shellName = (((3 : Nat) : Int), tbl') ∧
      IsStream (tinyImage.contents 0)
        (reads tinyImage 3 tbl' [.read 3 30 .fail, .read 2 5 .fail, .close 2, .read 3 30 .fail]) := by
  obtain ⟨tbl, hexec, hstream, _⟩ := file_streams tinyImage tinyImage_wellFormed
    (fun _ ↦ ⟨none, 0, 0, 0, 0⟩) [.openFd shellName, .read 2 7 .fail]
    [.read 3 30 .fail, .read 2 5 .fail, .close 2, .read 3 30 .fail] shellName
    (by simp [FileCall.IsReader]) (by simp [FileCall.IsReader])
  obtain ⟨tbl', hopen⟩ : ∃ tbl', openFd tinyImage tbl shellName = (((3 : Nat) : Int), tbl') := by
    cases hexec
    exact ⟨_, rfl⟩
  obtain ⟨d, hd, ht, hn⟩ : ∃ d, tinyImage.readDentryByName shellName = some d ∧ d.fileType = 2 ∧
      d.inodeNum = 0 := ⟨⟨strncpy shellName 32, 2, 0⟩, by decide, rfl, rfl⟩
  have h := hstream 3 d tbl' hd ht hopen (by simp)
  rw [hn] at h
  exact ⟨tbl, tbl', hexec, hopen, h⟩

end FdArray

end Illinix
