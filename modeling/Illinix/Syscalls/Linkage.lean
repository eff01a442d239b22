import Illinix.Base.Stack
import Illinix.Device.Idt
import Mathlib.Logic.Relation
import Mathlib.Tactic.FinCases

/-!
# The way into the kernel and back

A program calls `ece391_read` and the like (`ece391syscall.S`).  The wrapper saves `EBX`, moves
its arguments from the stack to registers and executes `INT $0x80`; the processor goes to the
kernel stack through the gate that `load_idt` has made; `sys_call` (`handlers.S`) saves the
registers, looks the function up in `sys_call_jumptable` and calls it, or puts `-1` into `EAX`;
and `IRET` goes back.

Here all of this runs on a processor with the instructions that the two files use.  What a function
of the table does is a parameter, up to its return: `CReturns` is the part of the calling convention
that the way back needs, under which a function may write over its own arguments.  Instructions may
have any length, so code is a table from an address to an instruction and the address behind it.
Interrupts on the way are left out.
-/

namespace Illinix

open Base

/-! ## The processor -/

inductive Reg
  | eax | ebx | ecx | edx | esi | edi | ebp | esp
deriving DecidableEq, Repr

/-- The instructions of the two files.  A comparison and the jump behind it are one, and so is the
call through `sys_call_jumptable(, %eax, 4)`. -/
inductive Instr
  | push (r : Reg)
  | pop (r : Reg)
  | movImm (v : Nat) (r : Reg)
  /-- `MOVL off(%ESP), r` -/
  | movStack (off : Nat) (r : Reg)
  | int (n : Nat)
  /-- `cmp $v, %eax` and `jl target` -/
  | jl (v : Int) (target : Nat)
  /-- `cmp $v, %eax` and `jg target` -/
  | jg (v : Int) (target : Nat)
  | jmp (target : Nat)
  | callTable
  | sti
  | iret
  | ret

/-- The registers, and memory, long by long. -/
structure Processor where
  reg : Reg → Nat
  eip : Nat
  cs : Nat
  ss : Nat
  eflags : Nat
  mem : Nat → Nat

/-- What the processor runs on: code, the IDT, the stack in the TSS, and what a call of a function
of the table does, up to its return. -/
structure Platform where
  code : Nat → Option (Instr × Nat)
  idt : Nat → BitVec 64
  ss0 : Nat
  esp0 : Nat
  function : Nat → Processor → Option Processor

/-- A long, as a signed comparison takes it. -/
def signedLong (v : Nat) : Int := (v : Int).bmod (2 ^ 32)

namespace Processor

def set (s : Processor) (r : Reg) (v : Nat) : Processor :=
  { s with reg := Function.update s.reg r v }

/-- The long at an address. -/
def load (s : Processor) (a : Nat) : Nat := s.mem (a / 4)

/-- A push moves `ESP` first. -/
def push (s : Processor) (v : Nat) : Processor :=
  { s with
    reg := Function.update s.reg .esp (s.reg .esp - 4)
    mem := Function.update s.mem ((s.reg .esp - 4) / 4) v }

def pushAll (s : Processor) (vs : List Nat) : Processor := vs.foldl push s

/-- `ESP` goes up by some longs. -/
def drop (s : Processor) (n : Nat) : Processor := s.set .esp (s.reg .esp + 4 * n)

/-- The `IF` bit of `EFLAGS`. -/
def ifBit : Nat := 0x200

/-- `int n` in a program: the processor checks the gate, takes the stack in the TSS and saves there
where it was. -/
def trap (P : Platform) (n next : Nat) (s : Processor) : Option Processor :=
  let g := readGate (P.idt n)
  if s.cs % 4 = 3 ∧ g.Callable 3 then
    let k := { s with ss := P.ss0 }.set .esp P.esp0
    some { k.pushAll [s.ss, s.reg .esp, s.eflags, s.cs, next] with
      cs := g.selector.toNat
      eip := g.offset.toNat
      eflags := if g.type = interruptGate then s.eflags &&& (2 ^ 32 - 1 - ifBit) else s.eflags }
  else none

/-- `iret`; a return to another privilege level also takes back the stack. -/
def iret (s : Processor) : Processor :=
  let esp := s.reg .esp
  let s' := { s.drop 3 with eip := s.load esp, cs := s.load (esp + 4), eflags := s.load (esp + 8) }
  if s.load (esp + 4) % 4 = s.cs % 4 then s'
  else { s'.set .esp (s.load (esp + 12)) with ss := s.load (esp + 16) }

/-- One instruction, with `next` behind it. -/
def exec (P : Platform) (next : Nat) (s : Processor) : Instr → Option Processor
  | .push r => some { s.push (s.reg r) with eip := next }
  | .pop r => some { (s.drop 1).set r (s.load (s.reg .esp)) with eip := next }
  | .movImm v r => some { s.set r v with eip := next }
  | .movStack off r => some { s.set r (s.load (s.reg .esp + off)) with eip := next }
  | .int n => s.trap P n next
  | .jl v target => some { s with eip := if signedLong (s.reg .eax) < v then target else next }
  | .jg v target => some { s with eip := if v < signedLong (s.reg .eax) then target else next }
  | .jmp target => some { s with eip := target }
  | .callTable => P.function (s.reg .eax) (s.push next)
  | .sti => some { s with eflags := s.eflags ||| ifBit, eip := next }
  | .iret => some s.iret
  | .ret => some { s.drop 1 with eip := s.load (s.reg .esp) }

/-- The instruction at `EIP`. -/
def step (P : Platform) (s : Processor) : Option Processor :=
  (P.code s.eip).bind fun i ↦ s.exec P i.2 i.1

/-- Any number of instructions. -/
def Reaches (P : Platform) : Processor → Processor → Prop :=
  Relation.ReflTransGen fun s s' ↦ s.step P = some s'

end Processor

/-! ## The code -/

/-- The code from `a` on, up to `b`. -/
def Platform.Loaded (P : Platform) : Nat → List Instr → Nat → Prop
  | a, [], b => a = b
  | a, i :: is, b => ∃ next, P.code a = some (i, next) ∧ P.Loaded next is b

/-- `DO_CALL(name, number)`. -/
def doCall (number : Nat) : List Instr :=
  [.push .ebx, .movImm number .eax, .movStack 8 .ebx, .movStack 12 .ecx, .movStack 16 .edx,
    .int sysCallEntry, .pop .ebx, .ret]

/-- The registers that `sys_call` pushes, in this order. -/
def savedRegs : List Reg := [.ebp, .edi, .esi, .edx, .ecx, .ebx]

/-- `sys_call`, with its two labels. -/
structure Platform.HasSysCall (P : Platform) (sysCall notValid finish : Nat) : Prop where
  entry : ∃ b, P.Loaded sysCall (savedRegs.map .push ++
    [.jl 1 notValid, .jg 10 notValid, .callTable, .jmp finish]) b
  notValid : P.Loaded notValid [.movImm (2 ^ 32 - 1) .eax] finish
  finish : ∃ b, P.Loaded finish (savedRegs.reverse.map .pop ++ [.sti, .iret]) b

/-! ## Blocks of code -/

namespace Processor

variable {P : Platform} {s s' : Processor} {r r' : Reg} {v a b next : Nat} {i : Instr}
  {is : List Instr}

@[simp] theorem set_same : (s.set r v).reg r = v := Function.update_self _ _ _

theorem set_of_ne (h : r' ≠ r) : (s.set r v).reg r' = s.reg r' := Function.update_of_ne h _ _

theorem Reaches.one (h : s.step P = some s') : Reaches P s s' := Relation.ReflTransGen.single h

/-- The first instruction of a block. -/
theorem step_loaded (h : P.Loaded s.eip (i :: is) b) :
    ∃ next, P.Loaded next is b ∧ s.step P = s.exec P next i := by
  obtain ⟨next, hcode, hrest⟩ := h
  exact ⟨next, hrest, by rw [step, hcode, Option.bind_some]⟩

end Processor

theorem Platform.Loaded.append {P : Platform} {a b : Nat} {is js : List Instr}
    (h : P.Loaded a (is ++ js) b) : ∃ m, P.Loaded a is m ∧ P.Loaded m js b := by
  induction is generalizing a with
  | nil => exact ⟨a, rfl, h⟩
  | cons i is ih =>
      obtain ⟨next, hcode, hrest⟩ := h
      obtain ⟨m, his, hjs⟩ := ih hrest
      exact ⟨m, ⟨next, hcode, his⟩, hjs⟩

namespace Processor

/-- What a block that only moves longs between registers and the stack leaves alone. -/
structure Quiet (s s' : Processor) : Prop where
  cs : s'.cs = s.cs
  ss : s'.ss = s.ss
  eflags : s'.eflags = s.eflags

variable {P : Platform} {s : Processor} {b : Nat}

/-- What some pushes leave: the longs on the stack, the last one on top, and all else as it was. -/
structure Pushed (s : Processor) (vs xs : List Nat) (s' : Processor) : Prop where
  quiet : Quiet s s'
  esp : s'.reg .esp = s.reg .esp - 4 * vs.length
  regs : ∀ r, r ≠ .esp → s'.reg r = s.reg r
  stack : OnStack s'.mem (s'.reg .esp) (vs.reverse ++ xs)
  mem : ∀ j, j < (s.reg .esp - 4 * vs.length) / 4 ∨ s.reg .esp / 4 ≤ j → s'.mem j = s.mem j

theorem pushed_pushAll (vs : List Nat) {xs : List Nat} (hstack : OnStack s.mem (s.reg .esp) xs)
    (hroom : 4 * vs.length ≤ s.reg .esp) : Pushed s vs xs (s.pushAll vs) := by
  induction vs generalizing s xs with
  | nil => exact ⟨⟨rfl, rfl, rfl⟩, rfl, fun _ _ ↦ rfl, hstack, fun _ _ ↦ rfl⟩
  | cons v vs ih =>
      rw [List.length_cons] at hroom
      have hesp : (s.push v).reg .esp = s.reg .esp - 4 := by simp [push]
      have hon : OnStack (s.push v).mem ((s.push v).reg .esp) (v :: xs) := by
        rw [hesp]
        exact hstack.push (by omega) v
      obtain ⟨hquiet, hsp, hregs, hstack', hmem⟩ := ih (s := s.push v) hon (by omega)
      rw [hesp] at hsp hmem
      refine ⟨⟨hquiet.cs, hquiet.ss, hquiet.eflags⟩, ?_, fun r hr ↦ ?_, ?_, fun j hj ↦ ?_⟩
      · rw [List.length_cons]
        exact hsp.trans (by omega)
      · exact (hregs r hr).trans (Function.update_of_ne hr _ _)
      · rw [List.reverse_cons, List.append_assoc]
        exact hstack'
      · rw [List.length_cons] at hj
        exact (hmem j (by omega)).trans (Function.update_of_ne (by omega) _ _)

/-- **Registers are pushed.** -/
theorem pushes (rs : List Reg) (hesp : Reg.esp ∉ rs) (hload : P.Loaded s.eip (rs.map .push) b) :
    Reaches P s { s.pushAll (rs.map s.reg) with eip := b } := by
  induction rs generalizing s with
  | nil =>
      obtain rfl : s.eip = b := hload
      exact Relation.ReflTransGen.refl
  | cons r rs ih =>
      obtain ⟨next, hrest, hstep⟩ := step_loaded hload
      have hsame : rs.map (s.push (s.reg r)).reg = rs.map s.reg := by
        refine List.map_congr_left fun r' hr' ↦ Function.update_of_ne ?_ _ _
        rintro rfl
        exact hesp (List.mem_cons_of_mem r hr')
      have hreach := ih (s := { s.push (s.reg r) with eip := next })
        (fun h ↦ hesp (List.mem_cons_of_mem r h)) hrest
      have hpush : ∀ (vs : List Nat) (s : Processor) (n : Nat),
          { pushAll { s with eip := n } vs with eip := b } = { s.pushAll vs with eip := b } := by
        intro vs
        induction vs with
        | nil => exact fun _ _ ↦ rfl
        | cons v vs ihv => exact fun s n ↦ ihv (s.push v) n
      rw [hpush] at hreach
      refine .head hstep ?_
      rw [List.map_cons, ← hsame]
      exact hreach

/-- **Registers are popped**, the first one from the top. -/
theorem pops (rs : List Reg) (hesp : Reg.esp ∉ rs) (hnodup : rs.Nodup) {vs xs : List Nat}
    (hlen : vs.length = rs.length) (hload : P.Loaded s.eip (rs.map .pop) b)
    (hstack : OnStack s.mem (s.reg .esp) (vs ++ xs)) :
    ∃ s', Reaches P s s' ∧ s'.eip = b ∧ Quiet s s' ∧ s'.mem = s.mem ∧
      s'.reg .esp = s.reg .esp + 4 * rs.length ∧ rs.map s'.reg = vs ∧
      (∀ r, r ≠ .esp → r ∉ rs → s'.reg r = s.reg r) ∧ OnStack s'.mem (s'.reg .esp) xs := by
  induction rs generalizing s vs with
  | nil =>
      obtain rfl := List.length_eq_zero_iff.mp hlen
      exact ⟨s, Relation.ReflTransGen.refl, hload, ⟨rfl, rfl, rfl⟩, rfl, rfl, rfl,
        fun _ _ _ ↦ rfl, hstack⟩
  | cons r rs ih =>
      obtain ⟨v, vs, rfl⟩ := List.exists_cons_of_ne_nil (l := vs) (by rintro rfl; cases hlen)
      obtain ⟨next, hrest, hstep⟩ := step_loaded hload
      have hr : r ≠ .esp := fun h ↦ hesp (h ▸ List.mem_cons_self)
      obtain ⟨hnotMem, hnodup'⟩ := List.nodup_cons.mp hnodup
      have hsp₁ : ((s.drop 1).set r (s.load (s.reg .esp))).reg .esp = s.reg .esp + 4 := by
        rw [set_of_ne hr.symm, drop, set_same]
      obtain ⟨s', hreach, heip, hquiet, hmem, hsp, hvals, hregs, hon⟩ :=
        ih (s := { (s.drop 1).set r (s.load (s.reg .esp)) with eip := next })
          (fun h ↦ hesp (List.mem_cons_of_mem r h)) hnodup' (Nat.succ.inj hlen) hrest (by
            dsimp only
            rw [hsp₁]
            exact hstack.tail)
      dsimp only at hsp hregs
      rw [hsp₁] at hsp
      refine ⟨s', .head hstep hreach, heip, ⟨hquiet.cs, hquiet.ss, hquiet.eflags⟩, hmem, ?_, ?_, ?_,
        hon⟩
      · rw [hsp, List.length_cons]
        omega
      · rw [List.map_cons, hvals, hregs r hr hnotMem, set_same]
        exact congrArg (· :: vs) hstack.head
      · intro r' h h'
        rw [hregs r' h fun hmem ↦ h' (List.mem_cons_of_mem r hmem),
          set_of_ne fun heq : r' = r ↦ h' (heq ▸ List.mem_cons_self), drop, set_of_ne h]

/-! ## The way in -/

/-- What the processor saves on the kernel stack. -/
def saves (s : Processor) (next : Nat) : List Nat := [next, s.cs, s.eflags, s.reg .esp, s.ss]

/-- The processor is in the kernel, by an `int` in the state `s`. -/
structure Trapped (P : Platform) (s : Processor) (next : Nat) (k : Processor) : Prop where
  cs : k.cs % 4 = 0
  regs : ∀ r, r ≠ .esp → k.reg r = s.reg r
  esp : k.reg .esp = P.esp0 - 20
  stack : OnStack k.mem (k.reg .esp) (s.saves next)
  mem : ∀ j, j < (P.esp0 - 20) / 4 ∨ P.esp0 / 4 ≤ j → k.mem j = s.mem j

/-- `INT $0x80` in a program goes to `sys_call`. -/
theorem trap_sysCall {P : Platform} {addr : Handler → BitVec 32}
    (hidt : P.idt = fun v ↦ (loadIdt addr (fun _ ↦ .zero) v).val) {s : Processor}
    (hcs : s.cs % 4 = 3)
    (hesp : 48 ≤ P.esp0) (next : Nat) :
    ∃ k, s.trap P sysCallEntry next = some k ∧ k.eip = (addr .sysCall).toNat ∧
      Trapped P s next k := by
  have hgate := readGate_loadIdt addr (fun _ ↦ .zero) (v := sysCallEntry) (by decide) (by decide)
  have hlookup : idtHandlers.lookup sysCallEntry = some .sysCall := by decide
  rw [hlookup] at hgate
  let k₀ : Processor := { s with ss := P.ss0 }.set .esp P.esp0
  have hempty : OnStack k₀.mem (k₀.reg .esp) [] := trivial
  have hpushed := pushed_pushAll [s.ss, s.reg .esp, s.eflags, s.cs, next] hempty
    (by simp [k₀]; omega)
  have hesp₀ : k₀.reg .esp = P.esp0 := set_same
  have hcallable : s.cs % 4 = 3 ∧ (readGate (P.idt sysCallEntry)).Callable 3 := by
    rw [hidt]
    dsimp only
    rw [hgate]
    exact ⟨hcs, rfl, Nat.le_refl 3⟩
  have hsel : (readGate (P.idt sysCallEntry)).selector = kernelCs := by
    rw [hidt]
    dsimp only
    rw [hgate]
  have hoffset : (readGate (P.idt sysCallEntry)).offset = addr .sysCall := by
    rw [hidt]
    dsimp only
    rw [hgate]
  refine ⟨_, if_pos hcallable, congrArg BitVec.toNat hoffset, ?_, fun r hr ↦ ?_, ?_, ?_, ?_⟩
  · dsimp only
    rw [hsel]
    decide
  · exact (hpushed.regs r hr).trans (set_of_ne hr)
  · exact hpushed.esp.trans (by rw [hesp₀]; rfl)
  · have hstack := hpushed.stack
    rw [List.append_nil] at hstack
    exact hstack
  · have hmem := hpushed.mem
    rw [hesp₀] at hmem
    exact hmem

/-- The registers are saved, and `sys_call` is before its comparisons. -/
structure Saved (P : Platform) (s : Processor) (next : Nat) (k : Processor) : Prop where
  cs : k.cs % 4 = 0
  regs : ∀ r, r ≠ .esp → k.reg r = s.reg r
  esp : k.reg .esp = P.esp0 - 44
  stack : OnStack k.mem (k.reg .esp) (savedRegs.reverse.map s.reg ++ s.saves next)
  mem : ∀ j, j < (P.esp0 - 44) / 4 ∨ P.esp0 / 4 ≤ j → k.mem j = s.mem j

variable {k : Processor} {next notValid finish : Nat}

theorem Trapped.save (h : Trapped P s next k) (hesp : 48 ≤ P.esp0) {is : List Instr}
    (hload : P.Loaded k.eip (savedRegs.map .push ++ is) b) :
    ∃ k', Reaches P k k' ∧ Saved P s next k' ∧ P.Loaded k'.eip is b := by
  obtain ⟨m, hpushes, hrest⟩ := hload.append
  have hlen : 4 * (savedRegs.map k.reg).length = 24 := rfl
  have hpushed := pushed_pushAll (savedRegs.map k.reg) h.stack
    (by rw [hlen, h.esp]; omega)
  have hvals : (savedRegs.map k.reg).reverse = savedRegs.reverse.map s.reg := by
    rw [← List.map_reverse]
    refine List.map_congr_left fun r hr ↦ h.regs r ?_
    rintro rfl
    exact absurd hr (by decide)
  have hesp' := hpushed.esp
  have hmem := hpushed.mem
  have hstack := hpushed.stack
  rw [hlen, h.esp] at hesp' hmem
  rw [hvals] at hstack
  generalize hk' : k.pushAll (savedRegs.map k.reg) = k' at *
  have hreach : Reaches P k { k' with eip := m } := hk' ▸ pushes savedRegs (by decide) hpushes
  refine ⟨{ k' with eip := m }, hreach, ⟨?_, fun r hr ↦ ?_, ?_, hstack, fun j hj ↦ ?_⟩, hrest⟩
  · exact (congrArg (· % 4) hpushed.quiet.cs).trans h.cs
  · exact (hpushed.regs r hr).trans (h.regs r hr)
  · exact hesp'.trans (by omega)
  · exact (hmem j (by omega)).trans (h.mem j (by omega))

/-- The processor is in a function of the table: the arguments are in registers and on the stack. -/
structure Entered (P : Platform) (s : Processor) (next after : Nat) (e : Processor) : Prop where
  cs : e.cs % 4 = 0
  regs : ∀ r, r ≠ .esp → e.reg r = s.reg r
  esp : e.reg .esp = P.esp0 - 48
  stack : OnStack e.mem (e.reg .esp) (after :: (savedRegs.reverse.map s.reg ++ s.saves next))
  mem : ∀ j, j < (P.esp0 - 48) / 4 ∨ P.esp0 / 4 ≤ j → e.mem j = s.mem j

/-- The number is compared with 1 and with 10. -/
theorem Saved.compare (h : Saved P s next k) {is : List Instr}
    (hload : P.Loaded k.eip (.jl 1 notValid :: .jg 10 notValid :: is) b) :
    ∃ eip, Reaches P k { k with eip := eip } ∧
      (1 ≤ signedLong (s.reg .eax) ∧ signedLong (s.reg .eax) ≤ 10 → P.Loaded eip is b) ∧
      (signedLong (s.reg .eax) < 1 ∨ 10 < signedLong (s.reg .eax) → eip = notValid) := by
  obtain ⟨a, hrest, hjl⟩ := step_loaded hload
  have heax : k.reg .eax = s.reg .eax := h.regs .eax (by decide)
  rw [exec, heax] at hjl
  by_cases hlow : signedLong (s.reg .eax) < 1
  · rw [if_pos hlow] at hjl
    exact ⟨notValid, Reaches.one hjl, by omega, fun _ ↦ rfl⟩
  · rw [if_neg hlow] at hjl
    obtain ⟨c, hlast, hjg⟩ := step_loaded (s := { k with eip := a }) hrest
    rw [exec] at hjg
    dsimp only at hjg
    rw [heax] at hjg
    by_cases hhigh : 10 < signedLong (s.reg .eax)
    · rw [if_pos hhigh] at hjg
      exact ⟨notValid, .head hjl (Reaches.one hjg), by omega, fun _ ↦ rfl⟩
    · rw [if_neg hhigh] at hjg
      exact ⟨c, .head hjl (Reaches.one hjg), fun _ ↦ hlast, by omega⟩

/-- A call pushes where it comes back to. -/
theorem Saved.push (h : Saved P s next k) (hesp : 48 ≤ P.esp0) (after eip : Nat) :
    Entered P s next after ({ k with eip := eip }.push after) := by
  have hpushed := pushed_pushAll (s := { k with eip := eip }) [after] h.stack
    (by dsimp only; rw [h.esp]; simp; omega)
  refine ⟨h.cs, fun r hr ↦ ?_, ?_, hpushed.stack, fun j hj ↦ ?_⟩
  · exact (hpushed.regs r hr).trans (h.regs r hr)
  · refine hpushed.esp.trans ?_
    dsimp only
    rw [h.esp, List.length_singleton]
    omega
  · refine (hpushed.mem j ?_).trans (h.mem j (by omega))
    dsimp only
    rw [h.esp, List.length_singleton]
    omega

/-! ## The way out -/

/-- `IRET` to a program takes back what the processor saved. -/
theorem iret_user {g : Processor} (hcs : g.cs % 4 = 0) (huser : s.cs % 4 = 3)
    (hstack : OnStack g.mem (g.reg .esp) (s.saves next)) :
    g.iret.eip = next ∧ g.iret.cs = s.cs ∧ g.iret.ss = s.ss ∧ g.iret.eflags = s.eflags ∧
      g.iret.reg .esp = s.reg .esp ∧ g.iret.mem = g.mem ∧
      ∀ r, r ≠ .esp → g.iret.reg r = g.reg r := by
  obtain ⟨heip, hcs', hfl, hsp, hss, -⟩ := hstack
  have hleaves : ¬ g.load (g.reg .esp + 4) % 4 = g.cs % 4 := by
    rw [load, hcs']
    omega
  let t : Processor := { g.drop 3 with
    eip := g.load (g.reg .esp), cs := g.load (g.reg .esp + 4), eflags := g.load (g.reg .esp + 8) }
  have hiret : g.iret = { t.set .esp (g.load (g.reg .esp + 12)) with
      ss := g.load (g.reg .esp + 16) } := if_neg hleaves
  rw [hiret]
  refine ⟨heip, hcs', hss, hfl, ?_, rfl, fun r hr ↦ ?_⟩
  · exact (set_same (s := t) (r := .esp)).trans hsp
  · exact (set_of_ne (s := t) hr).trans (set_of_ne hr)

/-- The registers are taken back, and the program goes on. -/
theorem finish_returns {f : Processor}
    (hload : P.Loaded f.eip (savedRegs.reverse.map .pop ++ [.sti, .iret]) b)
    (hcs : f.cs % 4 = 0) (huser : s.cs % 4 = 3) {vs : List Nat} (hlen : vs.length = 6)
    (hstack : OnStack f.mem (f.reg .esp) (vs ++ s.saves next)) :
    ∃ s', Reaches P f s' ∧ s'.eip = next ∧ s'.cs = s.cs ∧ s'.ss = s.ss ∧ s'.eflags = s.eflags ∧
      s'.reg .esp = s.reg .esp ∧ s'.mem = f.mem ∧ s'.reg .eax = f.reg .eax ∧
      savedRegs.reverse.map s'.reg = vs := by
  obtain ⟨m, hpops, hrest⟩ := hload.append
  obtain ⟨g, hreach, heip, hquiet, hmem, -, hvals, hregs, hon⟩ :=
    pops savedRegs.reverse (by decide) (by decide) hlen hpops hstack
  rw [← heip] at hrest
  obtain ⟨a, hrest, hsti⟩ := step_loaded hrest
  let g' : Processor := { g with eflags := g.eflags ||| ifBit, eip := a }
  obtain ⟨c, -, hiret⟩ := step_loaded (s := g') hrest
  have hkernel : g'.cs % 4 = 0 := (congrArg (· % 4) hquiet.cs).trans hcs
  obtain ⟨heip', hcs', hss, hfl, hsp, hmem', hregs'⟩ := iret_user (g := g') hkernel huser hon
  refine ⟨g'.iret, hreach.trans (.head hsti (Reaches.one hiret)), heip', hcs', hss, hfl, hsp,
    hmem'.trans hmem, ?_, ?_⟩
  · exact (hregs' .eax (by decide)).trans (hregs .eax (by decide) (by decide))
  · rw [← hvals]
    refine List.map_congr_left fun r hr ↦ hregs' r ?_
    rintro rfl
    exact absurd hr (by decide)

/-- **A function of the table returns.**  It comes back to the address on the stack, and the stack
of its caller is as it was, but for the arguments: those are its own. -/
structure CReturns (P : Platform) (e f : Processor) : Prop where
  eip : f.eip = e.load (e.reg .esp)
  cs : f.cs = e.cs
  esp : f.reg .esp = e.reg .esp + 4
  mem : ∀ j, (e.reg .esp + 16) / 4 ≤ j → j < P.esp0 / 4 → f.mem j = e.mem j

/-- `sys_call` as loaded, behind the gate that `load_idt` makes. -/
structure Installed (P : Platform) : Prop where
  idt : ∃ addr : Handler → BitVec 32, P.idt = (fun v ↦ (loadIdt addr (fun _ ↦ .zero) v).val) ∧
    ∃ notValid finish, P.HasSysCall (addr .sysCall).toNat notValid finish
  esp0 : 48 ≤ P.esp0

/-- What is left of the saved registers when the function has returned. -/
theorem CReturns.stack {e f : Processor} (h : CReturns P e f) {after : Nat}
    (he : Entered P s next after e) (hesp : 48 ≤ P.esp0) :
    ∃ vs, vs.length = 6 ∧ vs.drop 3 = [s.reg .esi, s.reg .edi, s.reg .ebp] ∧
      OnStack f.mem (f.reg .esp) (vs ++ s.saves next) := by
  obtain ⟨args, hlen, hargs⟩ := OnStack.exists_of_length f.mem (f.reg .esp) 3
  let kept : List Nat := [s.reg .esi, s.reg .edi, s.reg .ebp]
  have hargs' : OnStack e.mem (e.reg .esp + 4)
      ([s.reg .ebx, s.reg .ecx, s.reg .edx] ++ (kept ++ s.saves next)) := he.stack.tail
  have hbehind : OnStack e.mem (e.reg .esp + 4 + 4 * 3) (kept ++ s.saves next) := hargs'.drop
  have hsame : OnStack f.mem (e.reg .esp + 4 + 4 * 3) (kept ++ s.saves next) := by
    refine hbehind.congr fun i hi hi' ↦ h.mem i (by omega) ?_
    have hnum : (kept ++ s.saves next).length = 8 := rfl
    rw [hnum, he.esp] at hi'
    omega
  refine ⟨args ++ kept, by rw [List.length_append, hlen]; rfl, ?_, ?_⟩
  · rw [← hlen, List.drop_left]
  · rw [List.append_assoc]
    refine hargs.append ?_
    rw [hlen, h.esp]
    exact hsame

theorem signedLong_of_le {n : Nat} (hn : n ≤ 10) : signedLong n = n :=
  Int.bmod_eq_of_le (by omega) (by omega)

/-- A system call with a number of the table, from `INT $0x80` to the instruction behind it. -/
theorem int_valid (hP : Installed P) (hint : P.code s.eip = some (.int sysCallEntry, next))
    (huser : s.cs % 4 = 3) {n : Nat} (heax : s.reg .eax = n) (hlow : 1 ≤ n) (hhigh : n ≤ 10) :
    ∃ k e after, Reaches P s k ∧ k.step P = P.function n e ∧ Entered P s next after e ∧
      ∀ f, P.function n e = some f → CReturns P e f → ∃ t, Reaches P s t ∧ t.eip = next ∧
        t.cs = s.cs ∧ t.ss = s.ss ∧ t.eflags = s.eflags ∧ t.mem = f.mem ∧
        t.reg .eax = f.reg .eax ∧ ∀ r ∈ [Reg.esi, .edi, .ebp, .esp], t.reg r = s.reg r := by
  obtain ⟨addr, hidt, notValid, finish, hcode⟩ := hP.idt
  obtain ⟨b, hentry⟩ := hcode.entry
  obtain ⟨b', hfinish⟩ := hcode.finish
  obtain ⟨k₀, htrap, heip, htrapped⟩ := trap_sysCall hidt huser hP.esp0 next
  have hint' : s.step P = some k₀ := by rw [step, hint, Option.bind_some, exec, htrap]
  rw [← heip] at hentry
  obtain ⟨k₁, hsave, hsaved, hload⟩ := htrapped.save hP.esp0 hentry
  obtain ⟨eip, hcompare, hvalid, -⟩ := hsaved.compare hload
  rw [heax, signedLong_of_le hhigh] at hvalid
  let k₂ : Processor := { k₁ with eip := eip }
  obtain ⟨after, hjmp, hcall⟩ := step_loaded (s := k₂) (hvalid (by omega))
  have heax₂ : k₂.reg .eax = n := (hsaved.regs .eax (by decide)).trans heax
  rw [exec, heax₂] at hcall
  have hentered := hsaved.push hP.esp0 after eip
  have hto : Reaches P s k₂ := .head hint' (hsave.trans hcompare)
  refine ⟨k₂, k₂.push after, after, hto, hcall, hentered, fun f hf hret ↦ ?_⟩
  obtain ⟨vs, hlen, hkept, hstack⟩ := hret.stack hentered hP.esp0
  have heipf : f.eip = after := hret.eip.trans hentered.stack.head
  rw [← heipf] at hjmp
  obtain ⟨c, -, hjump⟩ := step_loaded hjmp
  rw [exec] at hjump
  obtain ⟨t, hout, heipt, hcs, hss, hfl, hsp, hmem, heaxt, hvals⟩ :=
    finish_returns (f := { f with eip := finish }) hfinish
      ((congrArg (· % 4) hret.cs).trans hentered.cs) huser hlen hstack
  refine ⟨t, hto.trans (.head (hcall.trans hf) (.head hjump hout)), heipt, hcs, hss, hfl, hmem,
    heaxt, ?_⟩
  rw [← hvals] at hkept
  obtain ⟨hesi, hedi, hebp⟩ : t.reg .esi = s.reg .esi ∧ t.reg .edi = s.reg .edi ∧
      t.reg .ebp = s.reg .ebp := by
    simpa [savedRegs] using hkept
  simp [hesi, hedi, hebp, hsp]

/-- A kernel at 100 with functions that add up their arguments, and a wrapper at 0. -/
def adder : Platform where
  code a := if a < 100 then (doCall 3)[a]?.map (·, a + 1) else
    (savedRegs.map .push ++ [.jl 1 110, .jg 10 110, .callTable, .jmp 111,
      .movImm (2 ^ 32 - 1) .eax] ++ savedRegs.reverse.map .pop ++
      [.sti, .iret])[a - 100]?.map (·, a + 1)
  idt v := (loadIdt (fun _ ↦ 100) (fun _ ↦ .zero) v).val
  ss0 := 0x18
  esp0 := 0x7FFFFC
  function _ e := some { (e.drop 1).set .eax (e.reg .ebx + e.reg .ecx + e.reg .edx) with
    eip := e.load (e.reg .esp) }

theorem installed_adder : Installed adder := by
  refine ⟨⟨fun _ ↦ 100, rfl, 110, 111, ⟨110, ?_⟩, ⟨111, rfl, rfl⟩, ⟨119, ?_⟩⟩, by decide⟩
  · exact ⟨101, rfl, 102, rfl, 103, rfl, 104, rfl, 105, rfl, 106, rfl, 107, rfl, 108, rfl, 109, rfl,
      110, rfl, rfl⟩
  · exact ⟨112, rfl, 113, rfl, 114, rfl, 115, rfl, 116, rfl, 117, rfl, 118, rfl, 119, rfl, rfl⟩

/-- A program that calls the wrapper from 76 with the arguments 1, 2 and 3. -/
def addCaller : Processor where
  reg | .esp => 4000 * 4096 | .ebx => 5 | .eax => 11 | _ => 0
  eip := 0
  cs := 0x23
  ss := 0x2B
  eflags := 0x202
  mem j := [77, 1, 2, 3].getD (j - 4000 * 1024) 0

/-- **A number outside the table.**  `INT $0x80` puts `-1` into `EAX`; no function is called, and
every other register, the flags and the memory outside the kernel stack are as they were. -/
theorem int_invalid (hP : Installed P) (hint : P.code s.eip = some (.int sysCallEntry, next))
    (huser : s.cs % 4 = 3) (heax : signedLong (s.reg .eax) < 1 ∨ 10 < signedLong (s.reg .eax)) :
    ∃ t, Reaches P s t ∧ t.eip = next ∧ t.cs = s.cs ∧ t.ss = s.ss ∧ t.eflags = s.eflags ∧
      t.reg .eax = 2 ^ 32 - 1 ∧ (∀ r, r ≠ .eax → t.reg r = s.reg r) ∧
      ∀ j, j < (P.esp0 - 44) / 4 ∨ P.esp0 / 4 ≤ j → t.mem j = s.mem j := by
  obtain ⟨addr, hidt, notValid, finish, hcode⟩ := hP.idt
  obtain ⟨b, hentry⟩ := hcode.entry
  obtain ⟨b', hfinish⟩ := hcode.finish
  obtain ⟨k₀, htrap, heip, htrapped⟩ := trap_sysCall hidt huser hP.esp0 next
  have hint' : s.step P = some k₀ := by rw [step, hint, Option.bind_some, exec, htrap]
  rw [← heip] at hentry
  obtain ⟨k₁, hsave, hsaved, hload⟩ := htrapped.save hP.esp0 hentry
  obtain ⟨eip, hcompare, -, hnot⟩ := hsaved.compare hload
  obtain rfl := hnot heax
  let k₂ : Processor := { k₁ with eip := eip }
  obtain ⟨a, ha, hmov⟩ := step_loaded (s := k₂) hcode.notValid
  obtain rfl : a = finish := ha
  rw [exec] at hmov
  let f : Processor := { k₂.set .eax (2 ^ 32 - 1) with eip := a }
  have hesp : f.reg .esp = k₁.reg .esp :=
    set_of_ne (s := k₂) (v := 2 ^ 32 - 1) (show Reg.esp ≠ .eax by decide)
  have hstack : OnStack f.mem (f.reg .esp) (savedRegs.reverse.map s.reg ++ s.saves next) := by
    rw [hesp]
    exact hsaved.stack
  obtain ⟨t, hout, heipt, hcs, hss, hfl, hsp, hmem, heaxt, hvals⟩ :=
    finish_returns (f := f) hfinish hsaved.cs huser rfl hstack
  have hto : Reaches P s t := .head hint' ((hsave.trans hcompare).trans (.head hmov hout))
  refine ⟨t, hto, heipt, hcs, hss, hfl, heaxt.trans (set_same (s := k₂) (r := .eax)), fun r hr ↦ ?_,
    fun j hj ↦ ?_⟩
  · have hmap : ∀ r ∈ savedRegs.reverse, t.reg r = s.reg r := List.map_inj_left.mp hvals
    cases r with
    | eax => exact absurd rfl hr
    | esp => exact hsp
    | _ => exact hmap _ (by decide)
  · rw [hmem]
    exact hsaved.mem j hj

theorem int_invalid_eleven : ∃ t, Reaches adder { addCaller with eip := 5 } t ∧ t.eip = 6 ∧
    t.reg .eax = 2 ^ 32 - 1 := by
  obtain ⟨t, hreach, heip, -, -, -, heax, -⟩ := int_invalid (P := adder)
    (s := { addCaller with eip := 5 }) installed_adder rfl rfl (by decide)
  exact ⟨t, hreach, heip, heax⟩

/-! ## The wrappers -/

/-- A long on the stack is moved to a register. -/
theorem movStack {xs : List Nat} {i : Nat} {r : Reg} {is : List Instr}
    (hload : P.Loaded s.eip (.movStack (4 * i) r :: is) b)
    (hstack : OnStack s.mem (s.reg .esp) xs) (hi : i < xs.length) :
    ∃ a, P.Loaded a is b ∧ s.step P = some { s.set r xs[i] with eip := a } := by
  obtain ⟨a, hrest, hstep⟩ := step_loaded hload
  have hval : s.load (s.reg .esp + 4 * i) = xs[i] := hstack.get hi
  rw [exec, hval] at hstep
  exact ⟨a, hrest, hstep⟩

/-- A wrapper up to its `INT`: the number and the arguments are in registers, and `EBX` is on the
stack. -/
structure Ready (s : Processor) (n x y z : Nat) (u : Processor) : Prop where
  quiet : Quiet s u
  eax : u.reg .eax = n
  ebx : u.reg .ebx = x
  ecx : u.reg .ecx = y
  edx : u.reg .edx = z
  esp : u.reg .esp = s.reg .esp - 4
  kept : ∀ r ∈ [Reg.esi, .edi, .ebp], u.reg r = s.reg r
  saved : u.mem ((s.reg .esp - 4) / 4) = s.reg .ebx
  mem : ∀ j, j ≠ (s.reg .esp - 4) / 4 → u.mem j = s.mem j

theorem doCall_ready {n x y z ret : Nat} (hload : P.Loaded s.eip (doCall n) b)
    (hstack : OnStack s.mem (s.reg .esp) [ret, x, y, z]) (hesp : 4 ≤ s.reg .esp) :
    ∃ u, Reaches P s u ∧ Ready s n x y z u ∧
      P.Loaded u.eip [.int sysCallEntry, .pop .ebx, .ret] b := by
  obtain ⟨a₁, hload₁, hstep₁⟩ := step_loaded hload
  have hpush := hstack.push hesp (s.reg .ebx)
  let s₁ : Processor := { s.push (s.reg .ebx) with eip := a₁ }
  obtain ⟨a₂, hload₂, hstep₂⟩ := step_loaded (s := s₁) hload₁
  let s₂ : Processor := { s₁.set .eax n with eip := a₂ }
  have hesp₁ : s₁.reg .esp = s.reg .esp - 4 := rfl
  have hesp₂ : s₂.reg .esp = s.reg .esp - 4 := rfl
  obtain ⟨a₃, hload₃, hstep₃⟩ := movStack (s := s₂) (i := 2) hload₂ (hesp₂ ▸ hpush)
    (by simp)
  let s₃ : Processor := { s₂.set .ebx x with eip := a₃ }
  have hesp₃ : s₃.reg .esp = s.reg .esp - 4 := rfl
  obtain ⟨a₄, hload₄, hstep₄⟩ := movStack (s := s₃) (i := 3) hload₃ (hesp₃ ▸ hpush)
    (by simp)
  let s₄ : Processor := { s₃.set .ecx y with eip := a₄ }
  have hesp₄ : s₄.reg .esp = s.reg .esp - 4 := rfl
  obtain ⟨a₅, hload₅, hstep₅⟩ := movStack (s := s₄) (i := 4) hload₄ (hesp₄ ▸ hpush)
    (by simp)
  let s₅ : Processor := { s₄.set .edx z with eip := a₅ }
  have hreach : Reaches P s s₅ :=
    .head hstep₁ (.head hstep₂ (.head hstep₃ (.head hstep₄ (Reaches.one hstep₅))))
  refine ⟨s₅, hreach, ⟨⟨rfl, rfl, rfl⟩, rfl, rfl, rfl, rfl, ?_, fun r hr ↦ ?_, ?_, fun j hj ↦ ?_⟩,
    hload₅⟩
  · exact hesp₄
  · fin_cases hr <;> rfl
  · exact hpush.head
  · exact Function.update_of_ne hj _ _

/-- **A system call**, from the call of a wrapper to its return. -/
theorem doCall_returns (hP : Installed P) {n x y z ret : Nat} (hlow : 1 ≤ n) (hhigh : n ≤ 10)
    (hload : P.Loaded s.eip (doCall n) b) (huser : s.cs % 4 = 3)
    (hstack : OnStack s.mem (s.reg .esp) [ret, x, y, z]) (habove : P.esp0 + 4 ≤ s.reg .esp) :
    ∃ k e, Reaches P s k ∧ k.step P = P.function n e ∧
      e.reg .ebx = x ∧ e.reg .ecx = y ∧ e.reg .edx = z ∧
      (∃ after, OnStack e.mem (e.reg .esp) [after, x, y, z]) ∧
      (∀ j, j < (P.esp0 - 48) / 4 ∨ P.esp0 / 4 ≤ j → j ≠ (s.reg .esp - 4) / 4 →
        e.mem j = s.mem j) ∧
      ∀ f, P.function n e = some f → CReturns P e f →
        (∀ j, (s.reg .esp - 4) / 4 ≤ j → j ≤ s.reg .esp / 4 → f.mem j = e.mem j) →
        ∃ t, Reaches P s t ∧ t.eip = ret ∧ t.cs = s.cs ∧ t.ss = s.ss ∧ t.eflags = s.eflags ∧
          t.mem = f.mem ∧ t.reg .eax = f.reg .eax ∧ t.reg .esp = s.reg .esp + 4 ∧
          ∀ r ∈ [Reg.ebx, .esi, .edi, .ebp], t.reg r = s.reg r := by
  obtain ⟨u, hready, hu, hload'⟩ := doCall_ready hload hstack (by omega)
  obtain ⟨next, hint, hrest⟩ := hload'
  have huser' : u.cs % 4 = 3 := (congrArg (· % 4) hu.quiet.cs).trans huser
  obtain ⟨k, e, after, hreach, hcall, hentered, hreturn⟩ :=
    int_valid hP hint huser' hu.eax hlow hhigh
  have hebx : e.reg .ebx = x := (hentered.regs .ebx (by decide)).trans hu.ebx
  have hecx : e.reg .ecx = y := (hentered.regs .ecx (by decide)).trans hu.ecx
  have hedx : e.reg .edx = z := (hentered.regs .edx (by decide)).trans hu.edx
  refine ⟨k, e, hready.trans hreach, hcall, hebx, hecx, hedx, ⟨after, ?_⟩, fun j hj hne ↦ ?_,
    fun f hf hret hframe ↦ ?_⟩
  · obtain ⟨h₀, h₁, h₂, h₃, -⟩ := hentered.stack
    exact ⟨h₀, h₁.trans hu.ebx, h₂.trans hu.ecx, h₃.trans hu.edx, trivial⟩
  · exact (hentered.mem j hj).trans (hu.mem j hne)
  obtain ⟨t₀, hback, heip, hcs, hss, hfl, hmem, heax, hregs⟩ := hreturn f hf hret
  have hesp₀ : t₀.reg .esp = s.reg .esp - 4 := (hregs .esp (by decide)).trans hu.esp
  have htop : t₀.load (t₀.reg .esp) = s.reg .ebx := by
    rw [load, hmem, hesp₀, hframe _ (Nat.le_refl _) (by omega), hentered.mem _ (by omega), hu.saved]
  rw [← heip] at hrest
  obtain ⟨a, hrest, hpop⟩ := step_loaded hrest
  rw [exec, htop] at hpop
  let t₁ : Processor := { (t₀.drop 1).set .ebx (s.reg .ebx) with eip := a }
  have hesp₁ : t₁.reg .esp = s.reg .esp := by
    have hdrop : t₁.reg .esp = t₀.reg .esp + 4 * 1 := rfl
    rw [hdrop, hesp₀]
    omega
  have hret' : t₁.load (t₁.reg .esp) = ret := by
    have hmem₁ : t₁.mem = f.mem := hmem
    rw [load, hmem₁, hesp₁, hframe _ (by omega) (Nat.le_refl _), hentered.mem _ (by omega),
      hu.mem _ (by omega)]
    exact hstack.head
  obtain ⟨c, -, hleave⟩ := step_loaded (s := t₁) hrest
  rw [exec, hret'] at hleave
  have hkept : ∀ r ∈ [Reg.esi, .edi, .ebp], t₀.reg r = s.reg r := fun r hr ↦
    (hregs r (List.mem_append_left [Reg.esp] hr)).trans (hu.kept r hr)
  refine ⟨{ t₁.drop 1 with eip := ret },
    hready.trans (hback.trans (.head hpop (Reaches.one hleave))), rfl, hcs.trans hu.quiet.cs,
    hss.trans hu.quiet.ss, hfl.trans hu.quiet.eflags, hmem, heax, ?_, fun r hr ↦ ?_⟩
  · rw [← hesp₁]
    rfl
  · fin_cases hr
    · rfl
    · exact hkept .esi (by decide)
    · exact hkept .edi (by decide)
    · exact hkept .ebp (by decide)

theorem doCall_returns_add : ∃ t, Reaches adder addCaller t ∧ t.eip = 77 ∧ t.reg .eax = 6 ∧
    t.reg .ebx = 5 := by
  obtain ⟨k, e, hreach, hcall, hebx, hecx, hedx, ⟨after, -⟩, hmem, hreturn⟩ :=
    @doCall_returns adder addCaller 8 installed_adder 3 1 2 3 77 (by decide) (by decide)
      ⟨1, rfl, 2, rfl, 3, rfl, 4, rfl, 5, rfl, 6, rfl, 7, rfl, 8, rfl, rfl⟩ rfl
      (by simp [OnStack, addCaller]) (by decide)
  obtain ⟨t, hto, heip, -, -, -, -, heax, -, hregs⟩ :=
    hreturn _ rfl ⟨rfl, rfl, rfl, fun _ _ _ ↦ rfl⟩ fun _ _ _ ↦ rfl
  refine ⟨t, hto, heip, heax.trans ?_, hregs .ebx (by decide)⟩
  have hsum : e.reg .ebx + e.reg .ecx + e.reg .edx = 6 := by rw [hebx, hecx, hedx]
  exact hsum

end Processor

end Illinix
