import Mathlib.Data.BitVec
import Mathlib.Logic.Function.Basic
import Mathlib.Tactic.Common

/-!
# The descriptors that the processor reads

An entry of the IDT is written field by field, through the bit fields of `idt_desc_t`, and
read by the processor as 64 bits.  `load_idt` fills the table in two passes: a loop over
the vectors sets the kind of each gate, and a list of `SET_IDT_ENTRY` its handler.
`idt_gates` is what the processor makes of the result.

The base address of a segment is split over three fields of `seg_desc_t` and its limit over
two; `SET_LDT_PARAMS` and `SET_TSS_PARAMS` are the same macro, and `segment_read_back` says
that the processor gets the two numbers back.
-/

namespace Illinix

/-! ## Fields of a packed structure -/

section Fields

variable {m n start len : Nat} {x : BitVec m} {y : BitVec n}

/-- A field that lies in the lower part, -/
theorem extractLsb'_append_low (h : start + len ≤ n) :
    (x ++ y).extractLsb' start len = y.extractLsb' start len := by
  apply BitVec.eq_of_getLsbD_eq
  intro i hi
  rw [BitVec.getLsbD_extractLsb', BitVec.getLsbD_extractLsb', BitVec.getLsbD_append,
    if_pos (by omega)]

/-- and one that lies in the upper part. -/
theorem extractLsb'_append_high (h : n ≤ start) :
    (x ++ y).extractLsb' start len = x.extractLsb' (start - n) len := by
  apply BitVec.eq_of_getLsbD_eq
  intro i hi
  rw [BitVec.getLsbD_extractLsb', BitVec.getLsbD_extractLsb', BitVec.getLsbD_append,
    if_neg (by omega), Nat.sub_add_comm h]

/-- The usual way to cut a field out of a word: mask it, and shift it down. -/
theorem setWidth_masked {x mask : BitVec m}
    (hmask : ∀ i, i < len → mask.getLsbD (start + i) = true) :
    ((x &&& mask) >>> start).setWidth len = x.extractLsb' start len := by
  apply BitVec.eq_of_getLsbD_eq
  intro i hi
  rw [BitVec.getLsbD_setWidth, BitVec.getLsbD_ushiftRight, BitVec.getLsbD_and, hmask i hi,
    BitVec.getLsbD_extractLsb', Bool.and_true]

/-- The lowest field needs no shift. -/
theorem setWidth_masked_low {x mask : BitVec m} (hmask : ∀ i, i < len → mask.getLsbD i = true) :
    (x &&& mask).setWidth len = x.extractLsb' 0 len := by
  have hmask' : ∀ i, i < len → mask.getLsbD (0 + i) = true := by
    intro i hi
    rw [Nat.zero_add]
    exact hmask i hi
  have hfield : ((x &&& mask) >>> 0).setWidth len = x.extractLsb' 0 len := setWidth_masked hmask'
  rwa [BitVec.ushiftRight_zero] at hfield

end Fields

/-! ## The interrupt descriptor table -/

def kernelCs : BitVec 16 := 0x0010
def numVec : Nat := 256
def numReservedVec : Nat := 32
def sysCallEntry : Nat := 0x80

/-- `idt_desc_t`. -/
structure IdtDesc where
  offset1500 : BitVec 16
  segSelector : BitVec 16
  reserved4 : BitVec 8
  reserved3 : BitVec 1
  reserved2 : BitVec 1
  reserved1 : BitVec 1
  size : BitVec 1
  reserved0 : BitVec 1
  dpl : BitVec 2
  present : BitVec 1
  offset3116 : BitVec 16
deriving DecidableEq, Repr

abbrev Idt := Nat → IdtDesc

namespace IdtDesc

/-- The structure as the two words of `val`, the second one in the upper half. -/
def val (d : IdtDesc) : BitVec 64 :=
  d.offset3116 ++ d.present ++ d.dpl ++ d.reserved0 ++ d.size ++ d.reserved1 ++ d.reserved2 ++
    d.reserved3 ++ d.reserved4 ++ d.segSelector ++ d.offset1500

/-- An entry as the table starts with it. -/
def zero : IdtDesc := ⟨0, 0, 0, 0, 0, 0, 0, 0, 0, 0, 0⟩

def offset (d : IdtDesc) : BitVec 32 := d.offset3116 ++ d.offset1500

/-- `SET_IDT_ENTRY`. -/
def setIdtEntry (d : IdtDesc) (handler : BitVec 32) : IdtDesc :=
  { d with
    offset3116 := ((handler &&& 0xFFFF0000) >>> 16).setWidth 16
    offset1500 := (handler &&& 0xFFFF).setWidth 16 }

end IdtDesc

/-- The functions that `load_idt` installs. -/
inductive Handler
  | divideZeroException | singleStepException | nmiException | breakpointException
  | overflowException | boundsException | invalidOpcodeException | coprocessorException
  | doubleFaultException | segmentOverrunException | invalidTssException
  | segmentNotPresentException | stackFaultException | generalProtectionException
  | pageFaultException | mathFaultException | alignmentCheckException | machineCheckException
  | simdException | kbInterrupt | rtcInterrupt | pitInterrupt | sysCall
deriving DecidableEq, Repr

/-- The list of `SET_IDT_ENTRY` in `load_idt`. -/
def idtHandlers : List (Nat × Handler) :=
  [(0, .divideZeroException), (1, .singleStepException), (2, .nmiException),
    (3, .breakpointException), (4, .overflowException), (5, .boundsException),
    (6, .invalidOpcodeException), (7, .coprocessorException), (8, .doubleFaultException),
    (9, .segmentOverrunException), (10, .invalidTssException),
    (11, .segmentNotPresentException), (12, .stackFaultException),
    (13, .generalProtectionException), (14, .pageFaultException), (16, .mathFaultException),
    (17, .alignmentCheckException), (18, .machineCheckException), (19, .simdException),
    (33, .kbInterrupt), (40, .rtcInterrupt), (0x20, .pitInterrupt), (sysCallEntry, .sysCall)]

/-- The body of the loop of `load_idt`. -/
def loadIdtEntry (i : Nat) (d : IdtDesc) : IdtDesc :=
  let d := { d with
    segSelector := kernelCs, dpl := 0, present := 1, size := 1
    reserved4 := 0, reserved3 := 0, reserved2 := 1, reserved1 := 1, reserved0 := 0 }
  let d := if i < numReservedVec then { d with reserved3 := 1 } else d
  if i = 33 ∨ i = 40 ∨ i = 32 then
    { d with
      segSelector := kernelCs, present := 1, dpl := 0
      reserved3 := 0, reserved2 := 1, reserved1 := 1, reserved0 := 0, size := 1 }
  else if i = sysCallEntry then
    { d with dpl := 3, reserved3 := 1, reserved2 := 1, reserved1 := 1, size := 1 }
  else d

/-- The loop of `load_idt`, which passes over vector 15. -/
def loadIdtLoop : Nat → Nat → Idt → Idt
  | 0, _, idt => idt
  | fuel + 1, i, idt =>
      if i < numVec then
        if i = 15 then loadIdtLoop fuel (i + 1) idt
        else loadIdtLoop fuel (i + 1) (Function.update idt i (loadIdtEntry i (idt i)))
      else idt

/-- Some `SET_IDT_ENTRY` in a row. -/
def setIdtEntries (addr : Handler → BitVec 32) (entries : List (Nat × Handler)) (idt : Idt) :
    Idt :=
  entries.foldl (fun idt e ↦ Function.update idt e.1 ((idt e.1).setIdtEntry (addr e.2))) idt

/-- `load_idt`; `addr` is where the linker puts the handlers. -/
def loadIdt (addr : Handler → BitVec 32) (idt : Idt) : Idt :=
  setIdtEntries addr idtHandlers (loadIdtLoop numVec 0 idt)

/-! ## What the processor reads -/

/-- A gate, as the processor takes it apart. -/
structure Gate where
  offset : BitVec 32
  selector : BitVec 16
  /-- The kind of gate, with the bit that marks system descriptors. -/
  type : BitVec 5
  dpl : BitVec 2
  present : BitVec 1
deriving DecidableEq, Repr

def readGate (v : BitVec 64) : Gate where
  offset := v.extractLsb' 48 16 ++ v.extractLsb' 0 16
  selector := v.extractLsb' 16 16
  type := v.extractLsb' 40 5
  dpl := v.extractLsb' 45 2
  present := v.extractLsb' 47 1

/-- An interrupt gate turns interrupts off, -/
def interruptGate : BitVec 5 := 0xE

/-- a trap gate does not. -/
def trapGate : BitVec 5 := 0xF

/-- The vectors that an `int` instruction may name at privilege level `cpl`. -/
def Gate.Callable (g : Gate) (cpl : Nat) : Prop := g.present = 1 ∧ cpl ≤ g.dpl.toNat

instance (g : Gate) (cpl : Nat) : Decidable (g.Callable cpl) :=
  inferInstanceAs (Decidable (_ ∧ _))

/-- The fields, each behind those that are packed before it. -/
theorem IdtDesc.val_fields (d : IdtDesc) :
    d.val.extractLsb' 0 16 = d.offset1500 ∧ d.val.extractLsb' 16 16 = d.segSelector ∧
      d.val.extractLsb' 40 1 = d.reserved3 ∧ d.val.extractLsb' 41 1 = d.reserved2 ∧
      d.val.extractLsb' 42 1 = d.reserved1 ∧ d.val.extractLsb' 43 1 = d.size ∧
      d.val.extractLsb' 44 1 = d.reserved0 ∧ d.val.extractLsb' 45 2 = d.dpl ∧
      d.val.extractLsb' 47 1 = d.present ∧ d.val.extractLsb' 48 16 = d.offset3116 := by
  rw [IdtDesc.val]
  refine ⟨?_, ?_, ?_, ?_, ?_, ?_, ?_, ?_, ?_, ?_⟩
  · rw [extractLsb'_append_low]
    all_goals simp
  · rw [extractLsb'_append_high, extractLsb'_append_low]
    all_goals simp
  · iterate 3 rw [extractLsb'_append_high]
    rw [extractLsb'_append_low]
    all_goals simp
  · iterate 4 rw [extractLsb'_append_high]
    rw [extractLsb'_append_low]
    all_goals simp
  · iterate 5 rw [extractLsb'_append_high]
    rw [extractLsb'_append_low]
    all_goals simp
  · iterate 6 rw [extractLsb'_append_high]
    rw [extractLsb'_append_low]
    all_goals simp
  · iterate 7 rw [extractLsb'_append_high]
    rw [extractLsb'_append_low]
    all_goals simp
  · iterate 8 rw [extractLsb'_append_high]
    rw [extractLsb'_append_low]
    all_goals simp
  · iterate 9 rw [extractLsb'_append_high]
    rw [extractLsb'_append_low]
    all_goals simp
  · iterate 10 rw [extractLsb'_append_high]
    all_goals simp

theorem readGate_val (d : IdtDesc) : readGate d.val =
    ⟨d.offset, d.segSelector, d.reserved0 ++ d.size ++ d.reserved1 ++ d.reserved2 ++ d.reserved3,
      d.dpl, d.present⟩ := by
  obtain ⟨hlow, hsel, h3, h2, h1, hsize, h0, hdpl, hpresent, hhigh⟩ := d.val_fields
  have htype : d.val.extractLsb' 40 5 =
      d.reserved0 ++ d.size ++ d.reserved1 ++ d.reserved2 ++ d.reserved3 := by
    rw [← h0, ← hsize, ← h1, ← h2, ← h3]
    iterate 4 rw [BitVec.extractLsb'_append_extractLsb'_eq_extractLsb' (by rfl)]
  rw [readGate, hlow, hsel, htype, hdpl, hpresent, hhigh, IdtDesc.offset]

/-- `SET_IDT_ENTRY` splits the address, and the gate puts it together again. -/
theorem IdtDesc.offset_setIdtEntry (d : IdtDesc) (handler : BitVec 32) :
    (d.setIdtEntry handler).offset = handler := by
  have hhigh : ((handler &&& 0xFFFF0000) >>> 16).setWidth 16 = handler.extractLsb' 16 16 :=
    setWidth_masked (by decide)
  have hlow : (handler &&& 0xFFFF).setWidth 16 = handler.extractLsb' 0 16 :=
    setWidth_masked_low (by decide)
  rw [IdtDesc.offset, IdtDesc.setIdtEntry]
  dsimp only
  rw [hhigh, hlow]
  exact BitVec.extractLsb'_append_extractLsb'

/-! ## The two passes -/

section Passes

variable {idt : Idt} {v : Nat}

/-- The loop has passed over the vectors from `i` on. -/
theorem loadIdtLoop_eq {fuel i : Nat} (hfuel : numVec ≤ fuel + i) (v : Nat) :
    loadIdtLoop fuel i idt v =
      if i ≤ v ∧ v < numVec ∧ v ≠ 15 then loadIdtEntry v (idt v) else idt v := by
  induction fuel generalizing i idt with
  | zero => rw [loadIdtLoop, if_neg (by omega)]
  | succ fuel ih =>
      rw [loadIdtLoop]
      by_cases hi : i < numVec
      · rw [if_pos hi]
        by_cases h15 : i = 15
        · rw [if_pos h15, ih (by omega)]
          exact if_congr (by omega) rfl rfl
        · rw [if_neg h15, ih (by omega)]
          by_cases hv : v = i
          · subst hv
            rw [Function.update_self, if_neg (by omega), if_pos ⟨Nat.le_refl v, hi, h15⟩]
          · rw [Function.update_of_ne hv]
            exact if_congr (by omega) rfl rfl
      · rw [if_neg hi, if_neg (by omega)]

/-- Each vector gets the handler that the list has for it. -/
theorem setIdtEntries_eq (addr : Handler → BitVec 32) {entries : List (Nat × Handler)}
    (hnodup : (entries.map Prod.fst).Nodup) (idt : Idt) (v : Nat) :
    setIdtEntries addr entries idt v =
      match entries.lookup v with
      | some h => (idt v).setIdtEntry (addr h)
      | none => idt v := by
  induction entries generalizing idt with
  | nil => rfl
  | cons e entries ih =>
      obtain ⟨w, h⟩ := e
      rw [List.map_cons, List.nodup_cons] at hnodup
      have hcons : setIdtEntries addr ((w, h) :: entries) idt =
          setIdtEntries addr entries (Function.update idt w ((idt w).setIdtEntry (addr h))) := rfl
      rw [hcons, ih hnodup.2, List.lookup_cons]
      by_cases hv : v = w
      · subst hv
        have hnone : entries.lookup v = none := by
          rw [List.lookup_eq_none_iff]
          intro e he
          refine bne_iff_ne.mpr fun heq ↦ hnodup.1 ?_
          exact List.mem_map.mpr ⟨e, he, heq.symm⟩
        rw [hnone, Function.update_self, beq_self_eq_true]
      · rw [Function.update_of_ne hv, beq_eq_false_iff_ne.mpr hv]

/-- The kind of an entry after the loop. -/
theorem loadIdtEntry_kind (v : Nat) (d : IdtDesc) :
    (loadIdtEntry v d).segSelector = kernelCs ∧ (loadIdtEntry v d).present = 1 ∧
      (loadIdtEntry v d).dpl = (if v = sysCallEntry then 3 else 0) ∧
      (loadIdtEntry v d).reserved0 ++ (loadIdtEntry v d).size ++ (loadIdtEntry v d).reserved1 ++
          (loadIdtEntry v d).reserved2 ++ (loadIdtEntry v d).reserved3 =
        (if v < numReservedVec ∨ v = sysCallEntry then trapGate else interruptGate) ∧
      (loadIdtEntry v d).offset = d.offset := by
  have hirq : v = 33 ∨ v = 40 ∨ v = 32 → ¬ (v < numReservedVec ∨ v = sysCallEntry) := by
    simp only [numReservedVec, sysCallEntry]
    omega
  rw [loadIdtEntry]
  by_cases hdev : v = 33 ∨ v = 40 ∨ v = 32
  · have hkind := hirq hdev
    rw [not_or] at hkind
    simp only [if_pos hdev, if_neg hkind.1, if_neg hkind.2, if_neg (hirq hdev)]
    exact ⟨trivial, trivial, trivial, rfl, rfl⟩
  · by_cases hcall : v = sysCallEntry
    · have hlt : ¬ v < numReservedVec := by
        rw [hcall]
        decide
      simp only [if_neg hdev, if_neg hlt, if_pos hcall, if_pos (Or.inr hcall)]
      exact ⟨trivial, trivial, trivial, rfl, rfl⟩
    · by_cases hlt : v < numReservedVec
      · simp only [if_neg hdev, if_neg hcall, if_pos hlt, if_pos (Or.inl hlt)]
        exact ⟨trivial, trivial, trivial, rfl, rfl⟩
      · simp only [if_neg hdev, if_neg hcall, if_neg hlt, if_neg (not_or.mpr ⟨hlt, hcall⟩)]
        exact ⟨trivial, trivial, trivial, rfl, rfl⟩

/-- A gate of the filled table. -/
theorem readGate_loadIdt (addr : Handler → BitVec 32) (idt : Idt) {v : Nat} (hv : v < numVec)
    (h15 : v ≠ 15) :
    readGate (loadIdt addr idt v).val =
      { offset := match idtHandlers.lookup v with
          | some h => addr h
          | none => (idt v).offset
        selector := kernelCs
        type := if v < numReservedVec ∨ v = sysCallEntry then trapGate else interruptGate
        dpl := if v = sysCallEntry then 3 else 0
        present := 1 } := by
  obtain ⟨hsel, hpresent, hdpl, htype, hoffset⟩ := loadIdtEntry_kind v (idt v)
  have hloop : loadIdtLoop numVec 0 idt v = loadIdtEntry v (idt v) := by
    rw [loadIdtLoop_eq (Nat.le_refl _), if_pos ⟨Nat.zero_le v, hv, h15⟩]
  rw [readGate_val, loadIdt, setIdtEntries_eq addr (by decide), hloop]
  cases idtHandlers.lookup v with
  | none =>
      dsimp only
      rw [hsel, hpresent, hdpl, htype, hoffset]
  | some h =>
      dsimp only
      rw [IdtDesc.offset_setIdtEntry, ← hsel, ← hpresent, ← hdpl, ← htype]
      rfl

end Passes

/-- **What the processor finds in the IDT.**  After `load_idt` on the table of zeros that the
kernel starts with, every vector but 15 has a present gate to the kernel's code segment: a
trap gate for the exceptions and the system calls, an interrupt gate for all others, with the
handler of the list, if it has one, as its whole address.  Vector 15 has no gate.  And the
only vector that a program can name in an `int` is that of the system calls. -/
theorem idt_gates (addr : Handler → BitVec 32) :
    (∀ v, v < numVec → v ≠ 15 →
      readGate (loadIdt addr (fun _ ↦ .zero) v).val =
        { offset := match idtHandlers.lookup v with
            | some h => addr h
            | none => 0
          selector := kernelCs
          type := if v < numReservedVec ∨ v = sysCallEntry then trapGate else interruptGate
          dpl := if v = sysCallEntry then 3 else 0
          present := 1 }) ∧
      (readGate (loadIdt addr (fun _ ↦ .zero) 15).val).present = 0 ∧
      ∀ v, v < numVec →
        ((readGate (loadIdt addr (fun _ ↦ .zero) v).val).Callable 3 ↔ v = sysCallEntry) := by
  have habsent : (readGate (loadIdt addr (fun _ ↦ .zero) 15).val).present = 0 := by
    rw [readGate_val, loadIdt, setIdtEntries_eq addr (by decide), loadIdtLoop_eq (Nat.le_refl _)]
    rfl
  refine ⟨fun v hv h15 ↦ ?_, habsent, fun v hv ↦ ?_⟩
  · rw [readGate_loadIdt addr _ hv h15]
    rfl
  · by_cases h15 : v = 15
    · subst h15
      rw [Gate.Callable, habsent]
      exact iff_of_false (fun h ↦ absurd h.1 (by decide)) (by decide)
    · rw [readGate_loadIdt addr _ hv h15, Gate.Callable]
      by_cases hcall : v = sysCallEntry
      · simp only [if_pos hcall]
        exact iff_of_true ⟨trivial, by decide⟩ hcall
      · simp only [if_neg hcall]
        exact iff_of_false (fun h ↦ absurd h.2 (by decide)) hcall

/-! ## Segments -/

/-- `seg_desc_t`. -/
structure SegDesc where
  segLim1500 : BitVec 16
  base1500 : BitVec 16
  base2316 : BitVec 8
  type : BitVec 4
  sys : BitVec 1
  dpl : BitVec 2
  present : BitVec 1
  segLim1916 : BitVec 4
  avail : BitVec 1
  reserved : BitVec 1
  opsize : BitVec 1
  granularity : BitVec 1
  base3124 : BitVec 8
deriving DecidableEq, Repr

namespace SegDesc

def val (d : SegDesc) : BitVec 64 :=
  d.base3124 ++ d.granularity ++ d.opsize ++ d.reserved ++ d.avail ++ d.segLim1916 ++ d.present ++
    d.dpl ++ d.sys ++ d.type ++ d.base2316 ++ d.base1500 ++ d.segLim1500

/-- `SET_LDT_PARAMS` and `SET_TSS_PARAMS`. -/
def setParams (d : SegDesc) (addr lim : BitVec 32) : SegDesc :=
  { d with
    base3124 := ((addr &&& 0xFF000000) >>> 24).setWidth 8
    base2316 := ((addr &&& 0x00FF0000) >>> 16).setWidth 8
    base1500 := (addr &&& 0x0000FFFF).setWidth 16
    segLim1916 := ((lim &&& 0x000F0000) >>> 16).setWidth 4
    segLim1500 := (lim &&& 0x0000FFFF).setWidth 16 }

end SegDesc

/-- The base of a segment, as the processor puts it together, -/
def segmentBase (v : BitVec 64) : BitVec 32 :=
  v.extractLsb' 56 8 ++ v.extractLsb' 32 8 ++ v.extractLsb' 16 16

/-- and its limit. -/
def segmentLimit (v : BitVec 64) : BitVec 20 := v.extractLsb' 48 4 ++ v.extractLsb' 0 16

/-- The fields that the address and the limit are split over. -/
theorem SegDesc.val_fields (d : SegDesc) :
    d.val.extractLsb' 56 8 = d.base3124 ∧ d.val.extractLsb' 32 8 = d.base2316 ∧
      d.val.extractLsb' 16 16 = d.base1500 ∧ d.val.extractLsb' 48 4 = d.segLim1916 ∧
      d.val.extractLsb' 0 16 = d.segLim1500 := by
  rw [SegDesc.val]
  refine ⟨?_, ?_, ?_, ?_, ?_⟩
  · iterate 12 rw [extractLsb'_append_high]
    all_goals simp
  · iterate 2 rw [extractLsb'_append_high]
    rw [extractLsb'_append_low]
    all_goals simp
  · rw [extractLsb'_append_high, extractLsb'_append_low]
    all_goals simp
  · iterate 7 rw [extractLsb'_append_high]
    rw [extractLsb'_append_low]
    all_goals simp
  · rw [extractLsb'_append_low]
    all_goals simp

/-- **The segment reads back**: the base is the address, the limit its low 20 bits, whatever
stands in the other fields. -/
theorem segment_read_back (d : SegDesc) (addr lim : BitVec 32) :
    segmentBase (d.setParams addr lim).val = addr ∧
      segmentLimit (d.setParams addr lim).val = lim.extractLsb' 0 20 := by
  have h1 : ((addr &&& 0xFF000000) >>> 24).setWidth 8 = addr.extractLsb' 24 8 :=
    setWidth_masked (by decide)
  have h2 : ((addr &&& 0x00FF0000) >>> 16).setWidth 8 = addr.extractLsb' 16 8 :=
    setWidth_masked (by decide)
  have h3 : (addr &&& 0x0000FFFF).setWidth 16 = addr.extractLsb' 0 16 :=
    setWidth_masked_low (by decide)
  have h4 : ((lim &&& 0x000F0000) >>> 16).setWidth 4 = lim.extractLsb' 16 4 :=
    setWidth_masked (by decide)
  have h5 : (lim &&& 0x0000FFFF).setWidth 16 = lim.extractLsb' 0 16 :=
    setWidth_masked_low (by decide)
  obtain ⟨hhigh, hmid, hlow, hlimHigh, hlimLow⟩ := (d.setParams addr lim).val_fields
  rw [segmentBase, segmentLimit, hhigh, hmid, hlow, hlimHigh, hlimLow, SegDesc.setParams]
  dsimp only
  rw [h1, h2, h3, h4, h5]
  refine ⟨?_, BitVec.extractLsb'_append_extractLsb'_eq_extractLsb' (by rfl)⟩
  rw [BitVec.extractLsb'_append_extractLsb'_eq_extractLsb' (by rfl),
    BitVec.extractLsb'_append_extractLsb'_eq_extractLsb' (by rfl)]
  exact BitVec.extractLsb'_eq_self

end Illinix
