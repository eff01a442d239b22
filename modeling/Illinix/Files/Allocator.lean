import Illinix.Base.Run
import Illinix.Files.Descriptor
import Mathlib.Data.List.Find

/-!
# The descriptor table is an allocator

What the table is for is a finite map from descriptors to open files: `OpenMap`.
Its four operations say what the system calls should do — take the lowest free
descriptor, give one back, leave the map alone — and `Refines` is the relation
between a map and an `fd_array`, which may hold stale drivers in closed slots.
Every call on related states returns what the map says and stays related.

The main result reads this back for a PCB made by `create_pcb` and any sequence of
calls, on any image whose directory entries have the types 0, 1 or 2.
-/

namespace Illinix

/-- The kinds of files that a descriptor can be open on. -/
inductive FileKind
  | terminalInput
  | terminalOutput
  | rtc
  | directory
  | regular
deriving DecidableEq, Repr

namespace FileKind

/-- The kind that a directory entry's `file_type` stands for. -/
def ofType : Nat → Option FileKind
  | 0 => some .rtc
  | 1 => some .directory
  | 2 => some .regular
  | _ => none

/-- The driver table for a kind. -/
def ops : FileKind → FileOps
  | .terminalInput => .terminalInput
  | .terminalOutput => .terminalOutput
  | .rtc => .rtc
  | .directory => .directory
  | .regular => .file

end FileKind

/-- An open file. -/
structure OpenFile where
  kind : FileKind
  inode : Nat
deriving DecidableEq, Repr

/-- Which descriptors are open, and on what. -/
abbrev OpenMap := Nat → Option OpenFile

/-- A system call on descriptors, with the answer of the terminal where it needs
one. -/
inductive FileCall
  | openFd (filename : Bytes)
  | close (fd : Int)
  | read (fd nbytes : Int) (dev : ReadResult)
  | write (fd nbytes : Int) (dev : Int)

namespace OpenMap

/-- After `create_pcb`: the terminal on 0 and 1. -/
def initial : OpenMap
  | 0 => some ⟨.terminalInput, 0⟩
  | 1 => some ⟨.terminalOutput, 0⟩
  | _ => none

/-- A directory entry as an open file; only regular files keep their inode. -/
def entry (d : Dentry) : Option OpenFile :=
  (FileKind.ofType d.fileType).map fun kind ↦ ⟨kind, if kind = .regular then d.inodeNum else 0⟩

/-- The next map after a call. -/
def next (img : Image) (m : OpenMap) : FileCall → OpenMap
  | .openFd filename =>
      match (List.range' 2 (fdArraySize - 2)).find? (fun i ↦ (m i).isNone),
        (img.readDentryByName filename).bind entry with
      | some i, some f => Function.update m i (some f)
      | _, _ => m
  | .close fd => if 2 ≤ fd ∧ fd < fdArraySize then Function.update m fd.toNat none else m
  | .read _ _ _ => m
  | .write _ _ _ => m

end OpenMap

namespace FdArray

/-- One system call: its result and the new table, `none` where it would call
through a null driver table. -/
def call (img : Image) (tbl : FdArray) : FileCall → Option (Int × FdArray)
  | .openFd filename => some (openFd img tbl filename)
  | .close fd => some (close tbl fd)
  | .read fd nbytes dev =>
      some ((read img dev tbl fd nbytes).1.ret, (read img dev tbl fd nbytes).2)
  | .write fd nbytes dev => (write dev tbl fd nbytes).map fun ret ↦ (ret, tbl)

/-- The table after a call. -/
def next (img : Image) (tbl : FdArray) (c : FileCall) : Option FdArray :=
  (call img tbl c).map Prod.snd

/-- A descriptor in use. -/
def IsOpen (tbl : FdArray) (fd : Int) : Prop := ¬ OutOfRange fd ∧ (tbl fd.toNat).flags = 1

/-- A lowest descriptor among 2..7 that is not in use. -/
def IsLowestClosed (tbl : FdArray) (i : Nat) : Prop :=
  2 ≤ i ∧ i < fdArraySize ∧ (tbl i).flags = 0 ∧ ∀ j, 2 ≤ j → j < i → (tbl j).flags ≠ 0

/-- What a call may do to a table, and what it returns. -/
def CallSpec (img : Image) (tbl : FdArray) : FileCall → Int → FdArray → Prop
  | .openFd filename, ret, tbl' =>
      (∀ i, tbl.IsLowestClosed i → img.InDirectory filename →
        ret = i ∧ (tbl' i).flags = 1 ∧ (tbl' i).filePos = 0 ∧
        (∃ e kind, e < img.numDir ∧ img.entryName e = cstr filename fileNameSize ∧
          FileKind.ofType (img.fileType e) = some kind ∧
          (tbl' i).fileOperations = some kind.ops) ∧
        ∀ j, j ≠ i → tbl' j = tbl j) ∧
      ((∀ i, ¬ tbl.IsLowestClosed i) ∨ ¬ img.InDirectory filename → ret = -1 ∧ tbl' = tbl)
  | .close fd, ret, tbl' =>
      (2 ≤ fd ∧ tbl.IsOpen fd →
        ret = 0 ∧ tbl' = Function.update tbl fd.toNat { tbl fd.toNat with flags := 0 }) ∧
      (¬ (2 ≤ fd ∧ tbl.IsOpen fd) → ret = -1 ∧ tbl' = tbl)
  | .read fd _ _, ret, tbl' =>
      (¬ tbl.IsOpen fd → ret = -1 ∧ tbl' = tbl) ∧ (fd = 1 → ret = -1)
  | .write fd _ _, ret, tbl' =>
      (¬ tbl.IsOpen fd → ret = -1 ∧ tbl' = tbl) ∧ (fd = 0 → ret = -1)

/-! ## Refinement -/

/-- A slot that stands for an entry of the map: in use exactly if the entry is
there, and then with the driver table of its kind. -/
def SlotRefines : Option OpenFile → FdStruct → Prop
  | none, slot => slot.flags = 0
  | some f, slot =>
      slot.flags = 1 ∧ slot.fileOperations = some f.kind.ops ∧ slot.inodeNum = f.inode

/-- The table stands for the map. -/
def Refines (m : OpenMap) (tbl : FdArray) : Prop :=
  ∀ i, i < fdArraySize → SlotRefines (m i) (tbl i)

namespace Refines

variable {img : Image} {m : OpenMap} {tbl : FdArray}

theorem initial (junk : FdArray) : Refines OpenMap.initial (create junk) := by
  intro i hi
  match i with
  | 0 => exact ⟨rfl, rfl, rfl⟩
  | 1 => exact ⟨rfl, rfl, rfl⟩
  | i + 2 =>
      have hne : i + 2 ≠ 1 := by omega
      simp [OpenMap.initial, SlotRefines, create, hi]

theorem flags_eq_zero_iff (h : Refines m tbl) {i : Nat} (hi : i < fdArraySize) :
    (tbl i).flags = 0 ↔ m i = none := by
  have hs := h i hi
  cases hm : m i with
  | none =>
      rw [hm] at hs
      exact ⟨fun _ ↦ rfl, fun _ ↦ hs⟩
  | some f =>
      rw [hm] at hs
      exact ⟨fun h0 ↦ absurd (hs.1.symm.trans h0) (by decide), fun hc ↦ (by cases hc)⟩

theorem flags_eq_one_iff (h : Refines m tbl) {i : Nat} (hi : i < fdArraySize) :
    (tbl i).flags = 1 ↔ (tbl i).flags ≠ 0 := by
  have hs := h i hi
  cases hm : m i with
  | none =>
      rw [hm] at hs
      have h0 : (tbl i).flags = 0 := hs
      rw [h0]
      decide
  | some f =>
      rw [hm] at hs
      rw [hs.1]
      decide

/-- The searches on both sides look at the same descriptors. -/
theorem firstClosed_eq (h : Refines m tbl) :
    tbl.firstClosed =
      (List.range' 2 (fdArraySize - 2)).find? (fun i ↦ (m i).isNone) := by
  have hpt : ∀ i ∈ List.range' 2 (fdArraySize - 2), ((tbl i).flags == 0) = (m i).isNone := by
    intro i hi
    rw [List.mem_range'_1] at hi
    have hlt : i < fdArraySize := by simp only [fdArraySize] at hi ⊢; omega
    rw [Bool.eq_iff_iff, beq_iff_eq, Option.isNone_iff_eq_none]
    exact h.flags_eq_zero_iff hlt
  rw [firstClosed]
  exact List.find?_congr hpt

/-- A driver table that is in use is never null, so `write` is safe. -/
theorem write_isSome (h : Refines m tbl) (dev fd nbytes : Int) :
    ∃ ret, write dev tbl fd nbytes = some ret := by
  rw [write]
  split
  · exact ⟨_, rfl⟩
  · rename_i hr
    split
    · rename_i hf
      have hs := h fd.toNat (toNat_lt_of_not_outOfRange hr)
      cases hm : m fd.toNat with
      | none =>
          rw [hm] at hs
          exact absurd (hf.symm.trans hs) (by decide)
      | some f =>
          rw [hm] at hs
          exact ⟨_, by rw [hs.2.1]; rfl⟩
    · exact ⟨_, rfl⟩

theorem sameButPos (h : Refines m tbl) {tbl' : FdArray}
    (hs : ∀ i, SameButPos (tbl i) (tbl' i)) : Refines m tbl' := by
  intro i hi
  have ht := h i hi
  obtain ⟨ho, hn, hf⟩ := hs i
  cases hm : m i with
  | none =>
      rw [hm] at ht
      exact hf.trans ht
  | some f =>
      rw [hm] at ht
      exact ⟨hf.trans ht.1, ho.trans ht.2.1, hn.trans ht.2.2⟩

/-- Changing one slot together with its entry. -/
theorem update (h : Refines m tbl) {i : Nat} {f : Option OpenFile} {slot : FdStruct}
    (hs : SlotRefines f slot) :
    Refines (Function.update m i f) (Function.update tbl i slot) := by
  intro j hj
  by_cases hji : j = i
  · subst hji
    rwa [Function.update_self, Function.update_self]
  · rw [Function.update_of_ne hji, Function.update_of_ne hji]
    exact h j hj

/-- The types of the directory entries that a lookup can return. -/
theorem entry_isSome (htypes : ∀ i, i < img.numDir → img.fileType i ≤ 2) {filename : Bytes}
    {d : Dentry} (hd : img.readDentryByName filename = some d) : d.fileType ≤ 2 := by
  obtain ⟨_, e, he, _, _, ht, _⟩ := Image.exists_entry_of_readDentryByName hd
  rw [ht]
  exact htypes e he

/-- `open` on related states. -/
theorem openFd (h : Refines m tbl) (htypes : ∀ i, i < img.numDir → img.fileType i ≤ 2)
    (filename : Bytes) :
    Refines (m.next img (.openFd filename)) (openFd img tbl filename).2 := by
  simp only [OpenMap.next, FdArray.openFd, ← h.firstClosed_eq]
  cases tbl.firstClosed with
  | none => exact h
  | some i =>
      cases hd : img.readDentryByName filename with
      | none => exact h
      | some d =>
          have hle := entry_isSome htypes hd
          obtain ⟨name, type, inode⟩ := d
          rcases type with - | - | - | type
          · exact h.update ⟨rfl, rfl, rfl⟩
          · exact h.update ⟨rfl, rfl, rfl⟩
          · exact h.update ⟨rfl, rfl, rfl⟩
          · exact absurd hle (Nat.not_le_of_lt (Nat.le_add_left 3 type))

/-- `close` on related states. -/
theorem close (h : Refines m tbl) (fd : Int) :
    Refines (m.next img (.close fd)) (close tbl fd).2 := by
  simp only [OpenMap.next, FdArray.close]
  by_cases hr : 2 ≤ fd ∧ fd < fdArraySize
  · have hr' : ¬ (fd < 2 ∨ fd ≥ fdArraySize) := by omega
    rw [if_pos hr, if_neg hr']
    split
    · -- closing a closed descriptor changes neither side
      rename_i h0
      have hi : fd.toNat < fdArraySize := by simp only [fdArraySize] at hr ⊢; omega
      have hm : m fd.toNat = none := (h.flags_eq_zero_iff hi).mp h0
      rw [← hm, Function.update_eq_self]
      exact h
    · exact h.update (f := none) rfl
  · have hr' : fd < 2 ∨ fd ≥ fdArraySize := by omega
    rw [if_neg hr, if_pos hr']
    exact h

/-- **Every call refines the map.** -/
theorem next (h : Refines m tbl) (htypes : ∀ i, i < img.numDir → img.fileType i ≤ 2)
    {c : FileCall} {tbl' : FdArray} (hc : next img tbl c = some tbl') :
    Refines (m.next img c) tbl' := by
  cases c with
  | openFd filename =>
      cases hc
      exact h.openFd htypes filename
  | close fd =>
      cases hc
      exact h.close fd
  | read fd nbytes dev =>
      cases hc
      exact h.sameButPos fun i ↦ read_sameButPos i
  | write fd nbytes dev =>
      obtain ⟨ret, hret⟩ := h.write_isSome dev fd nbytes
      simp only [FdArray.next, call, hret, Option.map_some, Option.some.injEq] at hc
      rw [← hc]
      exact h

/-! ## What each call returns -/

theorem callSpec_openFd (htypes : ∀ i, i < img.numDir → img.fileType i ≤ 2)
    (filename : Bytes) :
    CallSpec img tbl (.openFd filename) (FdArray.openFd img tbl filename).1
      (FdArray.openFd img tbl filename).2 := by
  refine ⟨fun i hi hdir ↦ ?_, fun hno ↦ ?_⟩
  · have hfirst : tbl.firstClosed = some i := firstClosed_eq_some.mpr hi
    obtain ⟨d, hd⟩ := Option.isSome_iff_exists.mp (Image.readDentryByName_isSome_iff.mpr hdir)
    obtain ⟨_, e, he, _, hname, ht, _⟩ := Image.exists_entry_of_readDentryByName hd
    have hle := entry_isSome htypes hd
    obtain ⟨name, type, inode⟩ := d
    have hset : ∀ n ops, (tbl.setOpen i n ops i).flags = 1 ∧ (tbl.setOpen i n ops i).filePos = 0 ∧
        (tbl.setOpen i n ops i).fileOperations = some ops ∧
        ∀ j, j ≠ i → tbl.setOpen i n ops j = tbl j := fun n ops ↦ by
      refine ⟨?_, ?_, ?_, fun j hj ↦ Function.update_of_ne hj _ _⟩ <;>
        rw [setOpen, Function.update_self]
    simp only [FdArray.openFd, hfirst, hd]
    dsimp only at ht hle
    rcases type with - | - | - | type
    · obtain ⟨h₁, h₂, h₃, h₄⟩ := hset 0 .rtc
      exact ⟨rfl, h₁, h₂, ⟨e, .rtc, he, hname, by rw [← ht]; rfl, h₃⟩, h₄⟩
    · obtain ⟨h₁, h₂, h₃, h₄⟩ := hset 0 .directory
      exact ⟨rfl, h₁, h₂, ⟨e, .directory, he, hname, by rw [← ht]; rfl, h₃⟩, h₄⟩
    · obtain ⟨h₁, h₂, h₃, h₄⟩ := hset inode .file
      exact ⟨rfl, h₁, h₂, ⟨e, .regular, he, hname, by rw [← ht]; rfl, h₃⟩, h₄⟩
    · exact absurd hle (Nat.not_le_of_lt (Nat.le_add_left 3 type))
  · rcases hno with hno | hno
    · have hfirst : tbl.firstClosed = none := by
        cases hf : tbl.firstClosed with
        | none => rfl
        | some i => exact absurd (firstClosed_eq_some.mp hf) (hno i)
      simp only [FdArray.openFd, hfirst, and_self]
    · have hd : img.readDentryByName filename = none := by
        rw [← Option.not_isSome_iff_eq_none]
        exact fun hc ↦ hno (Image.readDentryByName_isSome_iff.mp hc)
      rw [FdArray.openFd]
      split
      · exact ⟨rfl, rfl⟩
      · rw [hd]
        exact ⟨rfl, rfl⟩

theorem callSpec_close (h : Refines m tbl) (fd : Int) :
    CallSpec img tbl (.close fd) (FdArray.close tbl fd).1 (FdArray.close tbl fd).2 := by
  refine ⟨fun ⟨h2, hr, hf⟩ ↦ ?_, fun hno ↦ ?_⟩
  · have hr' : ¬ (fd < 2 ∨ fd ≥ fdArraySize) := by
      simp only [OutOfRange, not_or] at hr ⊢
      omega
    have h0 : (tbl fd.toNat).flags ≠ 0 := by rw [hf]; decide
    rw [FdArray.close, if_neg hr', if_neg h0]
    refine ⟨?_, rfl⟩
    dsimp only
    split
    · rfl
    · rename_i ops _
      have hret : driverClose fd ops = 0 := by
        cases ops with
        | directory => exact if_neg hr
        | _ => rfl
      rw [hret]
      rfl
  · rw [FdArray.close]
    split
    · exact ⟨rfl, rfl⟩
    · rename_i hr
      split
      · exact ⟨rfl, rfl⟩
      · rename_i h0
        refine absurd ⟨by omega, ?_, ?_⟩ hno
        · simp only [OutOfRange, not_or] at hr ⊢
          omega
        · refine (h.flags_eq_one_iff ?_).mpr h0
          simp only [fdArraySize] at hr ⊢
          omega

theorem callSpec_read (h : Refines m tbl) (hm : m 1 = some ⟨.terminalOutput, 0⟩)
    (fd nbytes : Int) (dev : ReadResult) :
    CallSpec img tbl (.read fd nbytes dev) (FdArray.read img dev tbl fd nbytes).1.ret
      (FdArray.read img dev tbl fd nbytes).2 := by
  refine ⟨fun hno ↦ ?_, ?_⟩
  · by_cases hr : OutOfRange fd
    · rw [read_outOfRange hr]
      exact ⟨rfl, rfl⟩
    · have h0 : (tbl fd.toNat).flags = 0 := by
        by_contra hc
        exact hno ⟨hr, (h.flags_eq_one_iff (toNat_lt_of_not_outOfRange hr)).mpr hc⟩
      rw [read_closed h0]
      exact ⟨rfl, rfl⟩
  · rintro rfl
    have hs := h 1 (by decide)
    rw [hm] at hs
    have hops : (tbl (Int.toNat 1)).fileOperations = some .terminalOutput := hs.2.1
    have hflags : (tbl (Int.toNat 1)).flags ≠ 0 := by
      rw [show (tbl (Int.toNat 1)).flags = 1 from hs.1]
      decide
    rw [FdArray.read, if_neg (by decide), if_neg hflags, hops]
    rfl

theorem callSpec_write (h : Refines m tbl) (hm : m 0 = some ⟨.terminalInput, 0⟩)
    {fd nbytes dev ret : Int} (hw : write dev tbl fd nbytes = some ret) :
    CallSpec img tbl (.write fd nbytes dev) ret tbl := by
  refine ⟨fun hno ↦ ⟨?_, rfl⟩, ?_⟩
  · rw [write] at hw
    split at hw
    · cases hw
      rfl
    · rename_i hr
      split at hw
      · rename_i hf
        exact absurd ⟨hr, hf⟩ hno
      · cases hw
        rfl
  · rintro rfl
    have hs := h 0 (by decide)
    rw [hm] at hs
    have hops : (tbl (Int.toNat 0)).fileOperations = some .terminalInput := hs.2.1
    have hflags : (tbl (Int.toNat 0)).flags = 1 := hs.1
    rw [write, if_neg (by decide), if_pos hflags, hops] at hw
    cases hw
    rfl

end Refines

/-! ## Runs of calls -/

end FdArray

namespace OpenMap

/-- No call replaces or closes descriptors 0 and 1. -/
theorem next_terminal {img : Image} {m : OpenMap} {i : Nat} (hi : i < 2) (c : FileCall) :
    m.next img c i = m i := by
  cases c with
  | openFd filename =>
      rw [next]
      cases hj : (List.range' 2 (fdArraySize - 2)).find? (fun i ↦ (m i).isNone) with
      | none => rfl
      | some j =>
          cases (img.readDentryByName filename).bind entry with
          | none => rfl
          | some f =>
              have hmem := List.mem_of_find?_eq_some hj
              rw [List.mem_range'_1] at hmem
              exact Function.update_of_ne (by omega) _ _
  | close fd =>
      rw [next]
      by_cases hfd : 2 ≤ fd ∧ fd < fdArraySize
      · rw [if_pos hfd]
        exact Function.update_of_ne (by omega) _ _
      · rw [if_neg hfd]
  | read fd nbytes dev => rfl
  | write fd nbytes dev => rfl

theorem foldl_next_terminal (img : Image) {i : Nat} (hi : i < 2) (calls : List FileCall)
    (m : OpenMap) : calls.foldl (next img) m i = m i := by
  induction calls generalizing m with
  | nil => rfl
  | cons c calls ih => rw [List.foldl_cons, ih, next_terminal hi]

end OpenMap

namespace FdArray

variable {img : Image} {m : OpenMap} {tbl : FdArray}

/-- Every call on related states returns, as `CallSpec` says. -/
theorem Refines.call (h : Refines m tbl) (htypes : ∀ i, i < img.numDir → img.fileType i ≤ 2)
    (h0 : m 0 = some ⟨.terminalInput, 0⟩) (h1 : m 1 = some ⟨.terminalOutput, 0⟩)
    (c : FileCall) : ∃ ret tbl', call img tbl c = some (ret, tbl') ∧ CallSpec img tbl c ret tbl' := by
  cases c with
  | openFd filename => exact ⟨_, _, rfl, callSpec_openFd htypes filename⟩
  | close fd => exact ⟨_, _, rfl, h.callSpec_close fd⟩
  | read fd nbytes dev => exact ⟨_, _, rfl, h.callSpec_read h1 fd nbytes dev⟩
  | write fd nbytes dev =>
      obtain ⟨ret, hret⟩ := h.write_isSome dev fd nbytes
      refine ⟨ret, tbl, ?_, h.callSpec_write h0 hret⟩
      rw [FdArray.call, hret]
      rfl

/-- Every run of calls goes through, and ends in a table that stands for the map that
the same calls make. -/
theorem Refines.exec (htypes : ∀ i, i < img.numDir → img.fileType i ≤ 2) (calls : List FileCall)
    (h : Refines m tbl) (h0 : m 0 = some ⟨.terminalInput, 0⟩)
    (h1 : m 1 = some ⟨.terminalOutput, 0⟩) :
    ∃ tbl', Base.exec (FdArray.next img) tbl calls = some tbl' ∧
      Refines (calls.foldl (OpenMap.next img) m) tbl' := by
  induction calls generalizing m tbl with
  | nil => exact ⟨tbl, rfl, h⟩
  | cons c calls ih =>
      obtain ⟨ret, tbl', hcall, _⟩ := h.call htypes h0 h1 c
      have hnext : FdArray.next img tbl c = some tbl' := by
        rw [FdArray.next, hcall]
        rfl
      obtain ⟨tbl'', hexec, href⟩ := ih (h.next htypes hnext)
        ((OpenMap.next_terminal (by decide) c).trans h0)
        ((OpenMap.next_terminal (by decide) c).trans h1)
      refine ⟨tbl'', ?_, href⟩
      rw [Base.exec_cons_eq_some]
      exact ⟨tbl', hnext, hexec⟩

/-- **The descriptor table is an allocator.**  From a PCB made by `create_pcb`, every
sequence of calls goes through and leaves a table that stands for the map of open
files: in particular every descriptor in use has the driver table of its kind, and 0
and 1 stay open on the terminal.  Every further call then returns and does what
`CallSpec` says. -/
theorem allocator_correct (img : Image) (htypes : ∀ i, i < img.numDir → img.fileType i ≤ 2)
    (junk : FdArray) (calls : List FileCall) :
    ∃ tbl, Base.exec (FdArray.next img) (create junk) calls = some tbl ∧
      Refines (calls.foldl (OpenMap.next img) OpenMap.initial) tbl ∧
      (tbl 0).flags = 1 ∧ (tbl 0).fileOperations = some .terminalInput ∧
      (tbl 1).flags = 1 ∧ (tbl 1).fileOperations = some .terminalOutput ∧
      ∀ c, ∃ ret tbl', call img tbl c = some (ret, tbl') ∧ CallSpec img tbl c ret tbl' := by
  obtain ⟨tbl, hexec, href⟩ := Refines.exec htypes calls (Refines.initial junk) rfl rfl
  have h0 := OpenMap.foldl_next_terminal img Nat.zero_lt_two calls OpenMap.initial
  have h1 := OpenMap.foldl_next_terminal img Nat.one_lt_two calls OpenMap.initial
  have hs0 := href 0 (by decide)
  have hs1 := href 1 (by decide)
  rw [h0] at hs0
  rw [h1] at hs1
  exact ⟨tbl, hexec, href, hs0.1, hs0.2.1, hs1.1, hs1.2.1, fun c ↦ href.call htypes h0 h1 c⟩

/-- A program that opens a file twice, gives the first descriptor back and asks again. -/
theorem allocator_correct_reopen :
    ∃ tbl, Base.exec (FdArray.next tinyImage) (create fun _ ↦ ⟨none, 0, 0, 0, 0⟩)
        [.openFd shellName, .openFd shellName, .close 2, .openFd shellName] = some tbl ∧
      (tbl 0).flags = 1 ∧
      ∃ ret tbl', call tinyImage tbl (.close 1) = some (ret, tbl') ∧
        CallSpec tinyImage tbl (.close 1) ret tbl' := by
  obtain ⟨tbl, hexec, _, h0, _, _, _, hcall⟩ := allocator_correct tinyImage tinyImage_fileType_le
    (fun _ ↦ ⟨none, 0, 0, 0, 0⟩)
    [.openFd shellName, .openFd shellName, .close 2, .openFd shellName]
  exact ⟨tbl, hexec, h0, hcall (.close 1)⟩

end FdArray

end Illinix
