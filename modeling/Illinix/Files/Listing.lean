import Illinix.Files.Descriptor

/-!
# Listing the directory

A program lists the directory by reading `"."` until a read returns 0.  `dir_read` delivers the
entry at the place of the descriptor and goes on to the next one; it never looks at `num_dir`.  What
the reads behind the last entry return is up to the slots there, and the index check of
`read_dentry_by_index` ends them with `-1`, not 0.

`dirResult` is what the `k`-th read of an opening returns, for every `k`, and `dir_reads_iff` says
which openings list the directory as they should.
-/

namespace Illinix

/-- The name `"."`. -/
def dotName : Bytes := Bytes.ofList [0x2e]

namespace FdArray

/-- The results of the reads of a descriptor with the given sizes, one after the other. -/
def dirReads (img : Image) (dev : ReadResult) (fd : Int) : FdArray → List Int → List ReadResult
  | _, [] => []
  | tbl, n :: ns =>
      let r := read img dev tbl fd n
      r.1 :: dirReads img dev fd r.2 ns

/-- A read that delivers the entry at place `k` of the directory. -/
def dirResult (img : Image) (k : Nat) : ReadResult :=
  if k ≤ numDirEntries then
    ⟨(img.entryName k).length, strncpy (img.fileName k) fileNameSize⟩
  else .fail

/-- The result that the `k`-th read of a listing should have: the name of entry `k` and its
length, and 0 behind the last entry. -/
def Lists (img : Image) (k : Nat) (r : ReadResult) : Prop :=
  if k < img.numDir then img.entryName k <+: r.stored ∧ r.ret = (img.entryName k).length
  else r.ret = 0

/-- Descriptor `i` is open on the directory, `pos` reads after its opening. -/
structure OpenDir (tbl : FdArray) (i pos : Nat) : Prop where
  lt : i < fdArraySize
  flags : (tbl i).flags ≠ 0
  ops : (tbl i).fileOperations = some .directory
  filePos : (tbl i).filePos = min pos (numDirEntries + 1)

variable {img : Image} {tbl tbl' : FdArray} {i pos : Nat}

/-! ## One read -/

/-- With room for a whole name, `dir_read` stores the field of the entry. -/
theorem dirReadBytes_strncpy (src : Bytes) {n : Int} (hn : fileNameSize ≤ n) :
    dirReadBytes (strncpy src fileNameSize) n = strncpy src fileNameSize := by
  have hlen : (strncpy src fileNameSize).length = fileNameSize := by
    have hle : (cstr src fileNameSize).length ≤ fileNameSize := length_cstrFrom_le src _ 0
    rw [strncpy_eq, List.length_append, List.length_replicate]
    omega
  refine List.ext_getElem? fun j ↦ ?_
  by_cases hj : j < fileNameSize
  · have hget : (strncpy src fileNameSize)[j]? = some ((strncpy src fileNameSize).getD j 0) := by
      rw [List.getD_eq_getElem _ 0 (by rwa [hlen]), List.getElem?_eq_getElem (by rwa [hlen])]
    rw [hget, dirReadBytes, List.getElem?_map, List.getElem?_range hj, Option.map_some]
    congr 1
    split
    · rfl
    · rename_i hstop
      by_contra hne
      exact hstop ⟨Ne.symm hne, by omega⟩
  · have hlen' : (dirReadBytes (strncpy src fileNameSize) n).length = fileNameSize := by
      rw [dirReadBytes, List.length_map, List.length_range]
    rw [List.getElem?_eq_none (by omega), List.getElem?_eq_none (by omega)]

/-- The bytes that are counted are those of the name. -/
theorem countP_strncpy (src : Bytes) (n : Nat) :
    (strncpy src n).countP (· ≠ 0) = (cstr src n).length := by
  have hname : (cstr src n).countP (· ≠ 0) = (cstr src n).length :=
    List.countP_eq_length.mpr fun x hx ↦ decide_eq_true (ne_zero_of_mem_cstrFrom src n 0 x hx)
  rw [strncpy_eq, List.countP_append, hname, List.countP_replicate, if_neg (by decide),
    Nat.add_zero]

namespace OpenDir

/-- `open` on a directory. -/
theorem openFd {filename : Bytes} {d : Dentry} (hd : img.readDentryByName filename = some d)
    (ht : d.fileType = 1) (h : openFd img tbl filename = ((i : Int), tbl')) : OpenDir tbl' i 0 := by
  obtain ⟨j, hf⟩ := exists_firstClosed h
  simp only [FdArray.openFd, hf, hd, ht, Prod.mk.injEq, Int.natCast_inj] at h
  obtain ⟨rfl, rfl⟩ := h
  have hself : tbl.setOpen j 0 .directory j =
      { tbl j with inodeNum := 0, filePos := 0, flags := 1, fileOperations := some .directory } :=
    Function.update_self _ _ _
  exact ⟨(firstClosed_eq_some.mp hf).2.1, by rw [hself]; exact Nat.one_ne_zero,
    by rw [hself], by rw [hself]; rfl⟩

/-- **One read** delivers the entry at its place and goes on to the next; behind the last index it
fails and stays where it is. -/
theorem read (h : OpenDir tbl i pos) (img : Image) (dev : ReadResult) {n : Int} (hn : fileNameSize ≤ n) :
    (read img dev tbl i n).1 = dirResult img pos ∧ OpenDir (read img dev tbl i n).2 i (pos + 1) := by
  have hrange : ¬ OutOfRange (i : Int) := by
    have := h.lt
    rw [OutOfRange]
    omega
  have hread : FdArray.read img dev tbl i n = dirRead img tbl i n := by
    rw [FdArray.read, if_neg hrange, Int.toNat_natCast, if_neg h.flags, h.ops]
    rfl
  rw [hread, dirRead, if_neg hrange, Int.toNat_natCast, dirResult]
  have hpos := h.filePos
  by_cases hlast : pos ≤ numDirEntries
  · have hplace : (tbl i).filePos = pos := by omega
    have hentry : img.readDentryByIndex (tbl i).filePos =
        some ⟨strncpy (img.fileName pos) fileNameSize, img.fileType pos, img.inodeNum pos⟩ := by
      rw [hplace, Image.readDentryByIndex, if_neg (Nat.not_lt.mpr hlast)]
    simp only [hentry]
    rw [dirReadBytes_strncpy _ hn, countP_strncpy, if_pos hlast]
    refine ⟨rfl, h.lt, ?_, ?_, ?_⟩
    · rw [Function.update_self]
      exact h.flags
    · rw [Function.update_self]
      exact h.ops
    · rw [Function.update_self, hplace]
      show toUInt32 ((pos : Int) + 1) = _
      rw [toUInt32]
      simp only [numDirEntries] at hlast ⊢
      omega
  · have hnone : img.readDentryByIndex (tbl i).filePos = none := by
      rw [hpos, Image.readDentryByIndex, if_pos (by omega)]
    simp only [hnone]
    rw [if_neg hlast]
    exact ⟨rfl, h.lt, h.flags, h.ops, by omega⟩

/-! ## The reads of an opening -/

/-- **Every read of an opening.** -/
theorem dirReads_getElem? (h : OpenDir tbl i pos) (img : Image) (dev : ReadResult) {ns : List Int}
    (hns : ∀ n ∈ ns, fileNameSize ≤ n) {k : Nat} (hk : k < ns.length) :
    (dirReads img dev i tbl ns)[k]? = some (dirResult img (pos + k)) := by
  induction ns generalizing tbl pos k with
  | nil => exact absurd hk (Nat.not_lt_zero k)
  | cons n ns ih =>
      obtain ⟨hresult, hnext⟩ := h.read img dev (hns n List.mem_cons_self)
      rw [dirReads]
      cases k with
      | zero => rw [List.getElem?_cons_zero, hresult, Nat.add_zero]
      | succ k =>
          rw [List.getElem?_cons_succ,
            ih hnext (fun m hm ↦ hns m (List.mem_cons_of_mem _ hm)) (Nat.lt_of_succ_lt_succ hk),
            Nat.add_assoc, Nat.add_comm 1 k]

end OpenDir

theorem length_dirReads (img : Image) (dev : ReadResult) (fd : Int) (tbl : FdArray)
    (ns : List Int) : (dirReads img dev fd tbl ns).length = ns.length := by
  induction ns generalizing tbl with
  | nil => rfl
  | cons n ns ih => rw [dirReads, List.length_cons, List.length_cons, ih]

/-- Which reads are as they should be. -/
theorem lists_dirResult (hdir : img.numDir ≤ numDirEntries) (k : Nat) :
    Lists img k (dirResult img k) ↔
      k < img.numDir ∨ (k ≤ numDirEntries ∧ img.fileName k 0 = 0) := by
  rw [Lists, dirResult]
  by_cases hk : k < img.numDir
  · rw [if_pos hk, if_pos (hk.le.trans hdir)]
    refine iff_of_true ⟨?_, rfl⟩ (Or.inl hk)
    rw [strncpy_eq]
    exact List.prefix_append _ _
  · rw [if_neg hk, or_iff_right hk]
    by_cases hlast : k ≤ numDirEntries
    · rw [if_pos hlast, and_iff_right hlast, Image.entryName, cstr, fileNameSize, cstrFrom]
      dsimp only
      split
      · rename_i hzero
        exact iff_of_true rfl hzero
      · rename_i hne
        rw [List.length_cons]
        exact iff_of_false (by omega) hne
    · rw [if_neg hlast]
      exact iff_of_false (by decide) fun hc ↦ hlast hc.1

/-- **When the directory is listed.**  After `"."` was opened, any reads with room for a name deliver
the entries in order and then 0 if and only if there are at most 64 of them, and every slot behind
the last entry that one of them comes to begins with a NUL. -/
theorem dir_reads_iff (img : Image) (hdir : img.numDir ≤ numDirEntries) (tbl tbl' : FdArray) (i : Nat)
    (d : Dentry) (hdot : img.readDentryByName dotName = some d) (htype : d.fileType = 1)
    (hopen : openFd img tbl dotName = ((i : Int), tbl')) (dev : ReadResult) (ns : List Int)
    (hns : ∀ n ∈ ns, fileNameSize ≤ n) :
    (∀ k r, (dirReads img dev i tbl' ns)[k]? = some r → Lists img k r) ↔
      ns.length ≤ numDirEntries + 1 ∧
        ∀ k, img.numDir ≤ k → k < ns.length → img.fileName k 0 = 0 := by
  have hstart := OpenDir.openFd hdot htype hopen
  have hget : ∀ k, k < ns.length → (dirReads img dev i tbl' ns)[k]? = some (dirResult img k) := by
    intro k hk
    have hread := hstart.dirReads_getElem? img dev hns hk
    rwa [Nat.zero_add] at hread
  constructor
  · intro hall
    have hlists : ∀ k, k < ns.length →
        k < img.numDir ∨ (k ≤ numDirEntries ∧ img.fileName k 0 = 0) := fun k hk ↦
      (lists_dirResult hdir k).mp (hall k _ (hget k hk))
    refine ⟨?_, fun k hle hk ↦ ((hlists k hk).resolve_left (Nat.not_lt.mpr hle)).2⟩
    by_contra hmany
    have hlast := hlists (numDirEntries + 1) (Nat.not_le.mp hmany)
    omega
  · rintro ⟨hmany, hempty⟩ k r hr
    have hk : k < ns.length := by
      obtain ⟨hlt, -⟩ := List.getElem?_eq_some_iff.mp hr
      rwa [length_dirReads] at hlt
    rw [hget k hk, Option.some.injEq] at hr
    rw [← hr, lists_dirResult hdir]
    by_cases hin : k < img.numDir
    · exact Or.inl hin
    · exact Or.inr ⟨by omega, hempty k (Nat.not_lt.mp hin) hk⟩

/-- A directory with the one entry `"."`. -/
def bareImage : Image where
  byte a := if a = 0 then 1 else if a = 64 then 0x2e else if a = 96 then 1 else 0

/-- One read lists it, and two more have nothing to add. -/
theorem dir_reads_iff_dot :
    bareImage.numDir = 1 ∧ ∀ k r, (dirReads bareImage .fail 2
        (openFd bareImage (create fun _ ↦ ⟨none, 0, 0, 0, 0⟩) dotName).2 [32, 32, 40])[k]? =
          some r →
      Lists bareImage k r := by
  refine ⟨by decide, ?_⟩
  exact (dir_reads_iff bareImage (by decide) (create fun _ ↦ ⟨none, 0, 0, 0, 0⟩) _ 2
    ⟨strncpy dotName fileNameSize, 1, 0⟩ (by decide) rfl rfl .fail [32, 32, 40] (by decide)).mpr
    ⟨by decide, by decide⟩

/-- The same directory, where the slot behind the entry holds the name of a deleted file. -/
def dotImage : Image where
  byte a := if a = 0 then 1 else if a = 64 then 0x2e else if a = 96 then 1 else
    if a = 128 then 0x78 else 0

/-- The second read should return 0 and delivers the deleted name. -/
theorem dir_reads_stale :
    (dirReads dotImage .fail 2
        (openFd dotImage (create fun _ ↦ ⟨none, 0, 0, 0, 0⟩) dotName).2 [32, 32]).map
        ReadResult.ret = [1, 1] ∧
      ¬ ∀ k r, (dirReads dotImage .fail 2
          (openFd dotImage (create fun _ ↦ ⟨none, 0, 0, 0, 0⟩) dotName).2 [32, 32])[k]? = some r →
        Lists dotImage k r := by
  refine ⟨by decide, fun h ↦ ?_⟩
  obtain ⟨r, hr, hret⟩ : ∃ r, (dirReads dotImage .fail 2
      (openFd dotImage (create fun _ ↦ ⟨none, 0, 0, 0, 0⟩) dotName).2 [32, 32])[1]? = some r ∧
      r.ret = 1 := ⟨_, rfl, by decide⟩
  have hlists := h 1 r hr
  rw [Lists, if_neg (by decide), hret] at hlists
  exact absurd hlists (by decide)

end FdArray

end Illinix
