import Illinix.Process.Step

/-!
# Descriptors from `open` to `halt`

A program gets a descriptor from `open` and gives it back with `close`, or leaves that to `halt`.
Both ends have a hole.

The switch of `open` on the type of the file has no default case, and behind it stands `return 0`:
a file of an unknown type is opened as descriptor 0, which is the keyboard.  `open_allocates_iff`
says that this is the only way in which `open` returns what it did not allocate.

`close` takes its argument from `EBX`, where a program's system call puts it.  The loop of `halt`
calls it as a C function, with the argument in `EAX`, so all eight calls are for the descriptor
that `EBX` happens to name.  `halt_releases_iff` says when this closes every open descriptor.
-/

namespace Illinix

namespace FdArray

/-! ## `open` -/

/-- The result of an `open` that is either a descriptor it has allocated, or `-1` with the table
as it was. -/
def Allocates (tbl : FdArray) (r : Int × FdArray) : Prop :=
  (∃ v : Nat, r.1 = v ∧ 2 ≤ v ∧ v ≤ 7 ∧ (tbl v).flags = 0 ∧ (r.2 v).flags ≠ 0 ∧
      (r.2 v).fileOperations.isSome) ∨
    r = (-1, tbl)

variable {img : Image} {tbl : FdArray} {filename : Bytes}

theorem allocates_setOpen {i : Nat} (h : tbl.firstClosed = some i) (inodeNum : Nat) (ops : FileOps) :
    Allocates tbl (i, tbl.setOpen i inodeNum ops) := by
  obtain ⟨hle, hlt, hclosed, -⟩ := firstClosed_eq_some.mp h
  have hself : tbl.setOpen i inodeNum ops i =
      { tbl i with inodeNum := inodeNum, filePos := 0, flags := 1, fileOperations := some ops } :=
    Function.update_self _ _ _
  refine Or.inl ⟨i, rfl, hle, Nat.le_of_lt_succ hlt, hclosed, ?_, ?_⟩
  · show (tbl.setOpen i inodeNum ops i).flags ≠ 0
    rw [hself]
    exact Nat.one_ne_zero
  · show (tbl.setOpen i inodeNum ops i).fileOperations.isSome
    rw [hself]
    rfl

/-- Descriptor 0 is never allocated. -/
theorem not_allocates_zero : ¬ Allocates tbl (0, tbl) := by
  rintro (⟨v, hv, hle, -⟩ | hfail)
  · simp only at hv
    omega
  · have hneg : (0 : Int) = -1 := congrArg Prod.fst hfail
    omega

/-- **When `open` allocates what it returns.**  For every image, table and name it does if and only
if there is no closed descriptor for the file, or the entry found for the name, if any, has one of
the three types. -/
theorem open_allocates_iff (img : Image) (tbl : FdArray) (filename : Bytes) :
    Allocates tbl (openFd img tbl filename) ↔
      ((∃ j, 2 ≤ j ∧ j ≤ 7 ∧ (tbl j).flags = 0) →
        ∀ d, img.readDentryByName filename = some d → d.fileType ≤ 2) := by
  rw [openFd]
  cases hfirst : tbl.firstClosed with
  | none =>
      refine iff_of_true (Or.inr rfl) ?_
      rintro ⟨j, hle, hlt, hclosed⟩
      rw [firstClosed, List.find?_eq_none] at hfirst
      have hopen := hfirst j (List.mem_range'_1.mpr ⟨hle, Nat.lt_succ_of_le hlt⟩)
      exact absurd (beq_iff_eq.mpr hclosed) hopen
  | some i =>
      obtain ⟨hle, hlt, hclosed, -⟩ := firstClosed_eq_some.mp hfirst
      dsimp only
      cases hfound : img.readDentryByName filename with
      | none => exact iff_of_true (Or.inr rfl) fun _ d hd ↦ (by cases hd)
      | some d =>
          dsimp only
          split
          · rename_i htype
            refine iff_of_true (allocates_setOpen hfirst 0 .rtc) fun _ d' hd ↦ ?_
            cases hd
            exact htype ▸ Nat.zero_le 2
          · rename_i htype
            refine iff_of_true (allocates_setOpen hfirst 0 .directory) fun _ d' hd ↦ ?_
            cases hd
            exact htype ▸ Nat.le_succ 1
          · rename_i htype
            refine iff_of_true (allocates_setOpen hfirst d.inodeNum .file) fun _ d' hd ↦ ?_
            cases hd
            exact htype ▸ Nat.le_refl 2
          · rename_i hzero hone htwo
            refine iff_of_false not_allocates_zero fun hall ↦ ?_
            have htype := hall ⟨i, hle, Nat.le_of_lt_succ hlt, hclosed⟩ d rfl
            have hne : d.fileType ≠ 0 ∧ d.fileType ≠ 1 ∧ d.fileType ≠ 2 := ⟨hzero, hone, htwo⟩
            omega

/-- The small image with a file of type 3. -/
def oddImage : Image where
  byte a := if a = 96 then 3 else tinyImage.byte a

/-- It is opened as descriptor 0, with no descriptor changed. -/
theorem open_returns_stdin :
    (openFd oddImage (create fun _ ↦ ⟨none, 0, 0, 0, 0⟩) shellName).1 = 0 ∧
      ¬ Allocates (create fun _ ↦ ⟨none, 0, 0, 0, 0⟩)
        (openFd oddImage (create fun _ ↦ ⟨none, 0, 0, 0, 0⟩) shellName) := by
  have hopen : openFd oddImage (create fun _ ↦ ⟨none, 0, 0, 0, 0⟩) shellName =
      (0, create fun _ ↦ ⟨none, 0, 0, 0, 0⟩) := rfl
  rw [hopen]
  exact ⟨rfl, not_allocates_zero⟩

/-! ## The loop of `halt` -/

/-- The registers a call finds its first argument in: `EBX` in the body of a system call, `EAX` in
any other function of the kernel. -/
structure ArgRegs where
  eax : Int
  ebx : Int

/-- A table, with the calls of drivers' `close` so far: the argument and the driver. -/
structure Closing where
  tbl : FdArray
  calls : List (Int × FileOps)

/-- A descriptor that `close` does not refuse. -/
def Closable (tbl : FdArray) (fd : Int) : Prop :=
  2 ≤ fd ∧ fd < fdArraySize ∧ (tbl fd.toNat).flags ≠ 0

instance (tbl : FdArray) (fd : Int) : Decidable (Closable tbl fd) :=
  inferInstanceAs (Decidable (_ ∧ _ ∧ _))

/-- `close`, called with some registers; the call of the driver stands behind both checks. -/
def closeCall (regs : ArgRegs) (c : Closing) : Closing where
  tbl := (close c.tbl regs.ebx).2
  calls :=
    if Closable c.tbl regs.ebx then
      match (c.tbl regs.ebx.toNat).fileOperations with
      | none => c.calls
      | some ops => c.calls ++ [(regs.ebx, ops)]
    else c.calls

/-- The loop of `halt`: the call `close(i)` puts `i` into `EAX` and leaves `EBX` as it was. -/
def haltLoop (ebx : Int) (tbl : FdArray) : Closing :=
  (List.range fdArraySize).foldl (fun c (i : Nat) ↦ closeCall ⟨i, ebx⟩ c) ⟨tbl, []⟩

theorem close_of_not_closable {fd : Int} (h : ¬ Closable tbl fd) : (close tbl fd).2 = tbl := by
  rw [close]
  split
  · rfl
  · rename_i hrange
    rw [not_or, not_lt, not_le] at hrange
    rw [if_pos (by_contra fun hopen ↦ h ⟨hrange.1, hrange.2, hopen⟩)]

theorem close_of_closable {fd : Int} (h : Closable tbl fd) :
    (close tbl fd).2 = Function.update tbl fd.toNat { tbl fd.toNat with flags := 0 } := by
  obtain ⟨hlo, hhi, hopen⟩ := h
  rw [close, if_neg (by omega), if_neg hopen]

theorem not_closable_close (fd : Int) : ¬ Closable (close tbl fd).2 fd := by
  by_cases h : Closable tbl fd
  · rw [close_of_closable h]
    rintro ⟨-, -, hopen⟩
    rw [Function.update_self] at hopen
    exact hopen rfl
  · rw [close_of_not_closable h]
    exact h

theorem closeCall_of_not_closable {regs : ArgRegs} {c : Closing} (h : ¬ Closable c.tbl regs.ebx) :
    closeCall regs c = c := by
  rw [closeCall, close_of_not_closable h, if_neg h]

theorem foldl_closeCall_of_not_closable {ebx : Int} {c : Closing} (h : ¬ Closable c.tbl ebx)
    (is : List Nat) : is.foldl (fun c (i : Nat) ↦ closeCall ⟨i, ebx⟩ c) c = c := by
  induction is with
  | nil => rfl
  | cons i is ih =>
      rw [List.foldl_cons, show closeCall ⟨i, ebx⟩ c = c from closeCall_of_not_closable h]
      exact ih

/-- The first call does what the eight calls do: the others find the descriptor closed. -/
theorem haltLoop_eq (ebx : Int) (tbl : FdArray) :
    haltLoop ebx tbl = closeCall ⟨0, ebx⟩ ⟨tbl, []⟩ := by
  have hrange : List.range fdArraySize = 0 :: (List.range 7).map Nat.succ := rfl
  rw [haltLoop, hrange, List.foldl_cons]
  exact foldl_closeCall_of_not_closable (not_closable_close ebx) _

/-- The tables that the loop goes through are those of `Kernel.closeFiles`. -/
theorem haltLoop_tbl (ebx : Int) (tbl : FdArray) :
    (haltLoop ebx tbl).tbl = (fun tbl ↦ (close tbl ebx).2)^[fdArraySize] tbl := by
  have hfix : (close (close tbl ebx).2 ebx).2 = (close tbl ebx).2 :=
    close_of_not_closable (not_closable_close ebx)
  rw [haltLoop_eq, show fdArraySize = 7 + 1 from rfl, Function.iterate_succ_apply]
  exact (Function.iterate_fixed hfix 7).symm

end FdArray

/-- What `halt` owes the open descriptors of the process with PCB `cur`: each of them is closed,
and its driver has been told so once. -/
def HaltReleases (k : Kernel) (cur : Nat) (ebx : Int) : Prop :=
  ∀ j : Nat, 2 ≤ j → j ≤ 7 → ((k.pcbs cur).fdArray j).flags ≠ 0 →
    (((k.closeFiles cur ebx).pcbs cur).fdArray j).flags = 0 ∧
      ∀ ops, ((k.pcbs cur).fdArray j).fileOperations = some ops →
        (FdArray.haltLoop ebx (k.pcbs cur).fdArray).calls.filter (·.1 = (j : Int)) =
          [((j : Int), ops)]

theorem closeFiles_fdArray (k : Kernel) (cur : Nat) (ebx : Int) :
    ((k.closeFiles cur ebx).pcbs cur).fdArray =
      (FdArray.haltLoop ebx (k.pcbs cur).fdArray).tbl := by
  rw [FdArray.haltLoop_tbl]
  simp only [Kernel.closeFiles, Function.update_self]

/-- **When `halt` closes what is open.**  For every kernel, every process and every value of `EBX`
it does if and only if no descriptor is open but the one that `EBX` names. -/
theorem halt_releases_iff (k : Kernel) (cur : Nat) (ebx : Int) :
    HaltReleases k cur ebx ↔
      ∀ j : Nat, 2 ≤ j → j ≤ 7 → ((k.pcbs cur).fdArray j).flags ≠ 0 → ebx = j := by
  rw [HaltReleases, closeFiles_fdArray, FdArray.haltLoop_eq]
  generalize (k.pcbs cur).fdArray = tbl
  constructor
  · intro hrel j hlo hhi hopen
    obtain ⟨hclosed, -⟩ := hrel j hlo hhi hopen
    by_contra hne
    have hkeep : (FdArray.close tbl ebx).2 j = tbl j := by
      by_cases hcl : FdArray.Closable tbl ebx
      · rw [FdArray.close_of_closable hcl]
        exact Function.update_of_ne (by have := hcl.1; omega) _ _
      · rw [FdArray.close_of_not_closable hcl]
    exact hopen ((congrArg FdStruct.flags hkeep).symm.trans hclosed)
  · intro honly j hlo hhi hopen
    obtain rfl := honly j hlo hhi hopen
    have hcl : FdArray.Closable tbl j := ⟨by omega, by simp only [fdArraySize]; omega, hopen⟩
    refine ⟨?_, fun ops hops ↦ ?_⟩
    · show ((FdArray.close tbl j).2 j).flags = 0
      rw [FdArray.close_of_closable hcl, Int.toNat_natCast, Function.update_self]
    · simp only [FdArray.closeCall, if_pos hcl, Int.toNat_natCast, hops]
      simp

/-- A process with one file open. -/
def oneFileKernel : Kernel :=
  { bootKernel tinyMachine tinyBoot with
    pcbs := fun _ ↦
      { tinyLocals.pcb with fdArray := FdArray.setOpen tinyLocals.pcb.fdArray 2 0 .file } }

/-- It halts with status 0 and leaves the file open. -/
theorem halt_leaves_open : ¬ HaltReleases oneFileKernel 0 0 := by
  intro hrel
  obtain ⟨hclosed, -⟩ := hrel 2 (by decide) (by decide) (by decide)
  exact Nat.one_ne_zero hclosed

end Illinix
