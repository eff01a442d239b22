import Mathlib.Data.List.Induction
import Mathlib.Tactic.Common
import Mathlib.Tactic.IntervalCases

/-!
# The interrupt controllers

`i8259.c` drives two 8259 chips and keeps its own record of which lines are masked, the
word `cached_irq_mask`.  `enable_irq` and `disable_irq` change one bit of the record and
then write one byte of it to the chip which that line belongs to.

The two start apart.  The record begins with every line masked; `i8259_init` writes the
same to the chips, but the initialisation that follows clears their mask registers, and
the two writes that would restore them are commented out.  A chip comes back into step
with the record at the first call for one of its own lines: `masks_agree_iff`.
-/

namespace Illinix

/-! ## The chips -/

/-- One 8259: its mask register, and how many initialisation words it waits for on its
config port. -/
structure Chip where
  imr : BitVec 8
  awaits : Nat
deriving DecidableEq, Repr

namespace Chip

/-- A write to the command port.  Bit 4 marks the word `ICW1`, which clears the mask
register and announces `ICW2` to `ICW4`; the other commands leave the register alone. -/
def command (c : Chip) (value : BitVec 8) : Chip := if value.getLsbD 4 then ⟨0, 3⟩ else c

/-- A write to the config port: an initialisation word that the chip waits for, or a new
value of the mask register. -/
def config (c : Chip) (value : BitVec 8) : Chip :=
  if c.awaits = 0 then { c with imr := value } else { c with awaits := c.awaits - 1 }

end Chip

/-! ## `i8259.c` -/

def master8259Port : Nat := 0x20
def slave8259Port : Nat := 0xA0
def master8259PortConfig : Nat := 0x21
def slave8259PortConfig : Nat := 0xA1

def icw1 : BitVec 8 := 0x11
def icw2Master : BitVec 8 := 0x20
def icw2Slave : BitVec 8 := 0x28
def icw3Master : BitVec 8 := 0x04
def icw3Slave : BitVec 8 := 0x02
def icw4 : BitVec 8 := 0x01

def masterMask : BitVec 8 := 0xff
def slaveMask : BitVec 8 := 0xff

/-- The chips, and the kernel's record. -/
structure Pic where
  master : Chip
  slave : Chip
  cachedIrqMask : BitVec 32
deriving DecidableEq, Repr

namespace Pic

/-- `cached_21`: the low byte of the record. -/
def cached21 (s : Pic) : BitVec 8 := s.cachedIrqMask.extractLsb' 0 8

/-- `cached_A1`: the next byte. -/
def cachedA1 (s : Pic) : BitVec 8 := s.cachedIrqMask.extractLsb' 8 8

/-- `outb`, for the four ports of the chips. -/
def outb (value : BitVec 8) (port : Nat) (s : Pic) : Pic :=
  if port = master8259Port then { s with master := s.master.command value }
  else if port = slave8259Port then { s with slave := s.slave.command value }
  else if port = master8259PortConfig then { s with master := s.master.config value }
  else if port = slave8259PortConfig then { s with slave := s.slave.config value }
  else s

/-- `i8259_init`. -/
def i8259Init (s : Pic) : Pic :=
  let s := outb masterMask master8259PortConfig s
  let s := outb slaveMask slave8259PortConfig s
  let s := outb icw1 master8259Port s
  let s := outb icw2Master master8259PortConfig s
  let s := outb icw3Master master8259PortConfig s
  let s := outb icw4 master8259PortConfig s
  let s := outb icw1 slave8259Port s
  let s := outb icw2Slave slave8259PortConfig s
  let s := outb icw3Slave slave8259PortConfig s
  outb icw4 slave8259PortConfig s

/-- What `enable_irq` and `disable_irq` share: a new record, and the byte of it that goes
to the chip of the line. -/
def setRecord (irqNum : Nat) (record : BitVec 32 → BitVec 32) (s : Pic) : Pic :=
  if irqNum > 15 then s
  else
    let s := { s with cachedIrqMask := record s.cachedIrqMask }
    if irqNum &&& 8 ≠ 0 then outb s.cachedA1 slave8259PortConfig s
    else outb s.cached21 master8259PortConfig s

/-- `enable_irq`. -/
def enableIrq (irqNum : Nat) : Pic → Pic := setRecord irqNum (· &&& ~~~(1#32 <<< irqNum))

/-- `disable_irq`. -/
def disableIrq (irqNum : Nat) : Pic → Pic := setRecord irqNum (· ||| 1#32 <<< irqNum)

end Pic

/-! ## Calls -/

/-- A call of `enable_irq` or `disable_irq`. -/
inductive IrqCall
  | enable (irqNum : Nat)
  | disable (irqNum : Nat)
deriving DecidableEq, Repr

namespace IrqCall

def irqNum : IrqCall → Nat
  | enable n => n
  | disable n => n

def apply : IrqCall → Pic → Pic
  | enable n => Pic.enableIrq n
  | disable n => Pic.disableIrq n

end IrqCall

/-- The controllers after `i8259_init` and a sequence of calls. -/
def picRun (s : Pic) (calls : List IrqCall) : Pic := calls.foldl (fun s c ↦ c.apply s) s.i8259Init

/-- The last call that names a line. -/
def lastNaming (calls : List IrqCall) (n : Nat) : Option IrqCall :=
  calls.reverse.find? fun c ↦ c.irqNum = n

/-- The line is masked in the chip it belongs to. -/
def Pic.Masked (s : Pic) (n : Nat) : Prop :=
  if n < 8 then s.master.imr.getLsbD n = true else s.slave.imr.getLsbD (n - 8) = true

/-- The mask registers are the two low bytes of the record, and a line is unmasked exactly
if the last call that names it enabled it. -/
structure Pic.Agrees (s : Pic) (calls : List IrqCall) : Prop where
  master : s.master.imr = s.cached21
  slave : s.slave.imr = s.cachedA1
  unmasked : ∀ n, n < 16 → (¬ s.Masked n ↔ lastNaming calls n = some (.enable n))

/-! ## One call -/

namespace Pic

variable {s : Pic} {n m : Nat} {record : BitVec 32 → BitVec 32}

theorem cached21_getLsbD (hn : n < 8) : s.cached21.getLsbD n = s.cachedIrqMask.getLsbD n := by
  rw [cached21, BitVec.getLsbD_extractLsb', decide_eq_true hn, Bool.true_and, Nat.zero_add]

theorem cachedA1_getLsbD (hn : n < 8) :
    s.cachedA1.getLsbD n = s.cachedIrqMask.getLsbD (8 + n) := by
  rw [cachedA1, BitVec.getLsbD_extractLsb', decide_eq_true hn, Bool.true_and]

/-- The chip a line belongs to. -/
theorem land_eight_eq_zero (hn : ¬ n > 15) : n &&& 8 = 0 ↔ n < 8 := by
  have hn : n < 16 := by omega
  interval_cases n <;> decide

/-- Once the chips are initialised, a call for a line of the master writes the master's
byte, and nothing else. -/
theorem setRecord_master (hm : s.master.awaits = 0) (hn : n < 8) :
    setRecord n record s =
      { s with
        cachedIrqMask := record s.cachedIrqMask
        master := ⟨(record s.cachedIrqMask).extractLsb' 0 8, 0⟩ } := by
  have hle : ¬ n > 15 := by omega
  have hland : ¬ (n &&& 8 ≠ 0) := not_not.mpr ((land_eight_eq_zero hle).mpr hn)
  rw [setRecord, if_neg hle]
  dsimp only
  rw [if_neg hland]
  simp [outb, master8259PortConfig, master8259Port, slave8259Port, Chip.config, cached21, hm]

theorem setRecord_slave (hs : s.slave.awaits = 0) (h8 : 8 ≤ n) (hn : n < 16) :
    setRecord n record s =
      { s with
        cachedIrqMask := record s.cachedIrqMask
        slave := ⟨(record s.cachedIrqMask).extractLsb' 8 8, 0⟩ } := by
  have hle : ¬ n > 15 := by omega
  have hland : n &&& 8 ≠ 0 := fun h ↦ by
    have := (land_eight_eq_zero hle).mp h
    omega
  rw [setRecord, if_neg hle]
  dsimp only
  rw [if_pos hland]
  simp [outb, master8259PortConfig, master8259Port, slave8259Port, slave8259PortConfig,
    Chip.config, cachedA1, hs]

theorem setRecord_other (hn : 16 ≤ n) : setRecord n record s = s := if_pos (by omega)

end Pic

/-- The new record of a call. -/
def IrqCall.record : IrqCall → BitVec 32 → BitVec 32
  | .enable n => (· &&& ~~~(1#32 <<< n))
  | .disable n => (· ||| 1#32 <<< n)

theorem IrqCall.apply_eq (c : IrqCall) (s : Pic) :
    c.apply s = Pic.setRecord c.irqNum c.record s := by
  cases c <;> rfl

/-- A call sets or clears the bit of its line, and no other. -/
theorem IrqCall.record_getLsbD (c : IrqCall) (w : BitVec 32) {n : Nat} (hn : n < 16) :
    (c.record w).getLsbD n = if c.irqNum = n then decide (c ≠ .enable n) else w.getLsbD n := by
  have hn : n < 32 := by omega
  cases c with
  | enable m =>
      rw [record, ← BitVec.twoPow_eq, BitVec.getLsbD_and, BitVec.getLsbD_not,
        BitVec.getLsbD_twoPow, decide_eq_true hn]
      by_cases h : m = n
      · simp [irqNum, h, hn]
      · simp [irqNum, h]
  | disable m =>
      rw [record, ← BitVec.twoPow_eq, BitVec.getLsbD_or, BitVec.getLsbD_twoPow]
      by_cases h : m = n
      · simp [irqNum, h, hn]
      · simp [irqNum, h]

/-- A byte of the record that the line is not in stays. -/
theorem IrqCall.record_extractLsb' (c : IrqCall) (w : BitVec 32) (start : Nat)
    (hs : start + 8 ≤ 16) (h : c.irqNum < start ∨ start + 8 ≤ c.irqNum) :
    (c.record w).extractLsb' start 8 = w.extractLsb' start 8 := by
  apply BitVec.eq_of_getLsbD_eq
  intro i hi
  rw [BitVec.getLsbD_extractLsb', BitVec.getLsbD_extractLsb',
    c.record_getLsbD w (by omega), if_neg (by omega)]

/-! ## Sequences of calls -/

theorem lastNaming_append (calls : List IrqCall) (c : IrqCall) (n : Nat) :
    lastNaming (calls ++ [c]) n = if c.irqNum = n then some c else lastNaming calls n := by
  rw [lastNaming, List.reverse_append, List.reverse_singleton, List.singleton_append,
    List.find?_cons]
  by_cases h : c.irqNum = n
  · rw [if_pos h, decide_eq_true h]
  · rw [if_neg h, decide_eq_false h]
    rfl

/-- What holds of the chips and the record after `i8259_init` and some calls: the record
follows the calls, and a chip has its byte of the record or, before the first call for one
of its lines, nothing. -/
structure Pic.Follows (calls : List IrqCall) (s : Pic) : Prop where
  masterReady : s.master.awaits = 0
  slaveReady : s.slave.awaits = 0
  record : ∀ n, n < 16 →
    s.cachedIrqMask.getLsbD n = decide (lastNaming calls n ≠ some (.enable n))
  master : (∃ c ∈ calls, c.irqNum < 8) → s.master.imr = s.cached21
  slave : (∃ c ∈ calls, 8 ≤ c.irqNum ∧ c.irqNum < 16) → s.slave.imr = s.cachedA1
  masterCleared : (¬ ∃ c ∈ calls, c.irqNum < 8) → s.master.imr = 0
  slaveCleared : (¬ ∃ c ∈ calls, 8 ≤ c.irqNum ∧ c.irqNum < 16) → s.slave.imr = 0

namespace Pic.Follows

variable {s : Pic} {calls : List IrqCall} {c : IrqCall}

theorem init (h : s.cachedIrqMask = 0xffff) : Follows [] s.i8259Init := by
  have hinit : s.i8259Init = ⟨⟨0, 0⟩, ⟨0, 0⟩, 0xffff⟩ := by
    rw [← h]
    rfl
  have hnone : ∀ {p : IrqCall → Prop}, ¬ ∃ c ∈ [], p c := by simp
  rw [hinit]
  refine ⟨rfl, rfl, fun n hn ↦ ?_, fun hc ↦ absurd hc hnone, fun hc ↦ absurd hc hnone,
    fun _ ↦ rfl, fun _ ↦ rfl⟩
  interval_cases n <;> rfl

theorem exists_append {p : IrqCall → Prop} :
    (∃ c' ∈ calls ++ [c], p c') ↔ (∃ c' ∈ calls, p c') ∨ p c := by
  simp only [List.mem_append, List.mem_singleton, or_and_right, exists_or, exists_eq_left]

theorem record_append (h : Follows calls s) {n : Nat} (hn : n < 16) :
    (c.record s.cachedIrqMask).getLsbD n =
      decide (lastNaming (calls ++ [c]) n ≠ some (.enable n)) := by
  rw [c.record_getLsbD _ hn, lastNaming_append]
  by_cases heq : c.irqNum = n
  · simp only [if_pos heq, ne_eq, Option.some.injEq]
  · rw [if_neg heq, if_neg heq, h.record n hn]

/-- **A call keeps the relation.** -/
theorem step (h : Follows calls s) : Follows (calls ++ [c]) (c.apply s) := by
  have hrec : ∀ n, n < 16 → (c.record s.cachedIrqMask).getLsbD n =
      decide (lastNaming (calls ++ [c]) n ≠ some (.enable n)) := fun n hn ↦ h.record_append hn
  rw [c.apply_eq]
  rcases Nat.lt_or_ge c.irqNum 8 with h8 | h8
  · -- the master is written; the slave's byte of the record stays
    rw [Pic.setRecord_master h.masterReady h8]
    have hkeep := c.record_extractLsb' s.cachedIrqMask 8 (by omega) (Or.inl h8)
    have hslave : ¬ (8 ≤ c.irqNum ∧ c.irqNum < 16) := by omega
    refine ⟨rfl, h.slaveReady, hrec, fun _ ↦ rfl, fun ht ↦ ?_, fun hn ↦ ?_, fun hn ↦ ?_⟩
    · rw [exists_append] at ht
      exact (h.slave (ht.resolve_right hslave)).trans hkeep.symm
    · exact absurd (exists_append.mpr (Or.inr h8)) hn
    · rw [exists_append, not_or] at hn
      exact h.slaveCleared hn.1
  · have hmaster : ¬ c.irqNum < 8 := by omega
    rcases Nat.lt_or_ge c.irqNum 16 with h16 | h16
    · rw [Pic.setRecord_slave h.slaveReady h8 h16]
      have hkeep := c.record_extractLsb' s.cachedIrqMask 0 (by omega) (Or.inr h8)
      refine ⟨h.masterReady, rfl, hrec, fun ht ↦ ?_, fun _ ↦ rfl, fun hn ↦ ?_, fun hn ↦ ?_⟩
      · rw [exists_append] at ht
        exact (h.master (ht.resolve_right hmaster)).trans hkeep.symm
      · rw [exists_append, not_or] at hn
        exact h.masterCleared hn.1
      · exact absurd (exists_append.mpr (Or.inr ⟨h8, h16⟩)) hn
    · -- the call returns at once
      have hslave : ¬ (8 ≤ c.irqNum ∧ c.irqNum < 16) := by omega
      rw [Pic.setRecord_other h16]
      refine ⟨h.masterReady, h.slaveReady, fun n hn ↦ ?_, fun ht ↦ ?_, fun ht ↦ ?_, fun hn ↦ ?_,
        fun hn ↦ ?_⟩
      · rw [h.record n hn, lastNaming_append, if_neg (by omega)]
      · rw [exists_append] at ht
        exact h.master (ht.resolve_right hmaster)
      · rw [exists_append] at ht
        exact h.slave (ht.resolve_right hslave)
      · rw [exists_append, not_or] at hn
        exact h.masterCleared hn.1
      · rw [exists_append, not_or] at hn
        exact h.slaveCleared hn.1

theorem run (h : s.cachedIrqMask = 0xffff) (calls : List IrqCall) :
    Follows calls (picRun s calls) := by
  induction calls using List.reverseRecOn with
  | nil => exact init h
  | append_singleton calls c ih =>
      rw [picRun, List.foldl_append]
      exact ih.step

/-- A byte of the record that no call has touched has every line masked. -/
theorem cached_eq_allOnes (h : Follows calls s) (start : Nat) (hs : start + 8 ≤ 16)
    (hnone : ¬ ∃ c ∈ calls, start ≤ c.irqNum ∧ c.irqNum < start + 8) :
    s.cachedIrqMask.extractLsb' start 8 = BitVec.allOnes 8 := by
  apply BitVec.eq_of_getLsbD_eq
  intro i hi
  have hlast : lastNaming calls (start + i) ≠ some (.enable (start + i)) := by
    intro hsome
    have hmem := List.mem_of_find?_eq_some hsome
    exact hnone ⟨_, List.mem_reverse.mp hmem, Nat.le_add_right _ _, Nat.add_lt_add_left hi _⟩
  rw [BitVec.getLsbD_extractLsb', BitVec.getLsbD_allOnes, decide_eq_true hi,
    h.record _ (by omega), decide_eq_true hlast, Bool.and_self]

theorem agrees (h : Follows calls s) (hm : s.master.imr = s.cached21)
    (hs : s.slave.imr = s.cachedA1) : s.Agrees calls := by
  refine ⟨hm, hs, fun n hn ↦ ?_⟩
  have hmasked : s.Masked n ↔ s.cachedIrqMask.getLsbD n = true := by
    rw [Masked]
    split
    · rename_i h8
      rw [hm, cached21_getLsbD h8]
    · rename_i h8
      rw [hs, cachedA1_getLsbD (by omega), Nat.add_sub_cancel' (by omega)]
  rw [hmasked, h.record n hn, decide_eq_true_eq, not_not]

end Pic.Follows

/-- **When the masks agree with the record.**  After `i8259_init` and a sequence of calls,
the mask registers are the two low bytes of the record, and every line is unmasked exactly
if the last call for it enabled it, if and only if both chips have been written: some call
names a line of the master, and some call a line of the slave. -/
theorem masks_agree_iff (s : Pic) (h : s.cachedIrqMask = 0xffff) (calls : List IrqCall) :
    (picRun s calls).Agrees calls ↔
      (∃ c ∈ calls, c.irqNum < 8) ∧ ∃ c ∈ calls, 8 ≤ c.irqNum ∧ c.irqNum < 16 := by
  have hf := Pic.Follows.run h calls
  constructor
  · intro ha
    refine ⟨by_contra fun hn ↦ ?_, by_contra fun hn ↦ ?_⟩
    · have hbyte := hf.cached_eq_allOnes 0 (by decide) (by simpa using hn)
      have hzero := (hf.masterCleared hn).symm.trans (ha.master.trans hbyte)
      exact absurd hzero (by decide)
    · have hbyte := hf.cached_eq_allOnes 8 (by decide) hn
      have hzero := (hf.slaveCleared hn).symm.trans (ha.slave.trans hbyte)
      exact absurd hzero (by decide)
  · rintro ⟨hm, hs⟩
    exact hf.agrees (hf.master hm) (hf.slave hs)

/-- The calls of `entry`, for the keyboard, the cascade and the clock. -/
theorem masks_agree_iff_entry :
    (picRun ⟨⟨0, 0⟩, ⟨0, 0⟩, 0xffff⟩ [.enable 1, .enable 2, .enable 8, .enable 0]).Agrees
      [.enable 1, .enable 2, .enable 8, .enable 0] :=
  (masks_agree_iff ⟨⟨0, 0⟩, ⟨0, 0⟩, 0xffff⟩ rfl _).mpr
    ⟨⟨.enable 1, by decide, by decide⟩, ⟨.enable 8, by decide, by decide, by decide⟩⟩

/-- Right after `i8259_init` the record has every line masked, and the chips have none: the
clock on line 8, which nothing has enabled, is unmasked. -/
theorem init_leaves_unmasked :
    (picRun ⟨⟨0xff, 0⟩, ⟨0xff, 0⟩, 0xffff⟩ []).cachedA1 = 0xff ∧
      (picRun ⟨⟨0xff, 0⟩, ⟨0xff, 0⟩, 0xffff⟩ []).slave.imr = 0 ∧
      ¬ (picRun ⟨⟨0xff, 0⟩, ⟨0xff, 0⟩, 0xffff⟩ []).Masked 8 ∧ lastNaming [] 8 = none ∧
      ¬ (picRun ⟨⟨0xff, 0⟩, ⟨0xff, 0⟩, 0xffff⟩ []).Agrees [] := by
  refine ⟨by decide, by decide, ?_, rfl, fun h ↦ ?_⟩
  · rw [Pic.Masked]
    decide
  · exact absurd h.master (by decide)

end Illinix
