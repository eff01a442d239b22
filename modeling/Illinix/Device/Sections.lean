import Illinix.Base.Critical
import Illinix.Device.Idt
import Illinix.Device.Rtc
import Illinix.Screen.Switch

/-!
# The critical sections of the drivers

The clock's registers are behind two ports: one selects a register, the other one is its data, and
the interrupt handler of the clock uses both.  `init_rtc`, `rtc_open` and `rtc_write` turn
interrupts off while they select, read, select and write.  `terminal_write` does so while it prints.

Here the statements between `cli` and `sti` are those of the source, any number of processes make
calls, and any interrupt may come, and any process go on, where interrupts are on.  By
`rtc_serial` the registers are what the calls leave that are made one after another, so no rate is
lost and no other register is written; by `writes_serial` no output comes into another.
-/

namespace Illinix

open Base

/-! ## The clock -/

/-- The calls that use the ports.  `junk` is what the local `rate` of `rtc_write` held before, and
`freq` the word at `buf`; with `nbytes ≠ 4` the call is over before the ports. -/
inductive RtcCall
  | initRtc
  | rtcOpen
  | rtcWrite (junk freq : BitVec 32)

namespace RtcCall

/-- `outb(value, cmosport1)` -/
def outIndex (value : BitVec 8) (x : Cmos × BitVec 8) : Cmos × BitVec 8 := (x.1.select value, x.2)

/-- `prev = inb(cmosport2)` -/
def inData (x : Cmos × BitVec 8) : Cmos × BitVec 8 := (x.1.read.2, x.1.read.1)

/-- `outb(value, cmosport2)`, with a value that may depend on `prev`. -/
def outData (value : BitVec 8 → BitVec 8) (x : Cmos × BitVec 8) : Cmos × BitVec 8 :=
  (x.1.write (value x.2), x.2)

/-- The rate goes to the low four bits of register A. -/
def setRate (rate : BitVec 8) : List (Cmos × BitVec 8 → Cmos × BitVec 8) :=
  [outIndex 0x8A, inData, outIndex 0x8A, outData fun prev ↦ (prev &&& 0xF0) ||| rate]

/-- The byte that is taken for a rate. -/
def rate : RtcCall → BitVec 8
  | initRtc => 0x2F
  | rtcOpen => 0x0F
  | rtcWrite junk freq => (rtcRate junk freq).setWidth 8

/-- What a call does between `cli` and `sti`; its own variable is `prev`. -/
def body : RtcCall → List (Cmos × BitVec 8 → Cmos × BitVec 8)
  | initRtc =>
      [outIndex 0x8A, outData fun _ ↦ 0x2F, outIndex 0x8B, inData, outIndex 0x8B,
        outData fun prev ↦ prev ||| 0x40]
  | rtcOpen => setRate 0x0F
  | rtcWrite junk freq => setRate ((rtcRate junk freq).setWidth 8)

/-- Registers A and B after a call. -/
def apply : RtcCall → BitVec 8 × BitVec 8 → BitVec 8 × BitVec 8
  | initRtc, (_, b) => (0x2F, b ||| 0x40)
  | c, (a, b) => ((a &&& 0xF0) ||| c.rate, b)

/-- Without interrupts `rtc_write` is the function of that name. -/
theorem runBody_rtcWrite (junk freq : BitVec 32) (c : Cmos) (prev : BitVec 8) :
    (runBody (rtcWrite junk freq).body (c, prev)).1 = (Illinix.rtcWrite c junk freq 4).2 := rfl

end RtcCall

namespace Cmos

/-- Registers A and B. -/
def rates (c : Cmos) : BitVec 8 × BitVec 8 := (c.regA, c.reg 0x0B)

/-- What a handler does to the ports: `rtc_interrupt_handler` reads register C. -/
def interrupt : Handler → Cmos → Cmos
  | .rtcInterrupt, c => (c.select 0x0C).read.2
  | _, c => c

theorem rates_interrupt (h : Handler) (c : Cmos) : (interrupt h c).rates = c.rates := by
  cases h <;> rfl

theorem rates_setRate (r : BitVec 8) (x : Cmos × BitVec 8) :
    (runBody (RtcCall.setRate r) x).1.rates = ((x.1.regA &&& 0xF0) ||| r, x.1.reg 0x0B) := by
  have hne : (0x0B : BitVec 7) ≠ 0x0A := by decide
  let a : BitVec 8 := (x.1.regA &&& 0xF0) ||| r
  have hreg : (runBody (RtcCall.setRate r) x).1.reg = Function.update x.1.reg 0x0A a := rfl
  rw [rates, regA, hreg, Function.update_self, Function.update_of_ne hne]

theorem rates_initRtc (x : Cmos × BitVec 8) :
    (runBody RtcCall.initRtc.body x).1.rates = (0x2F, x.1.reg 0x0B ||| 0x40) := by
  have hne : (0x0A : BitVec 7) ≠ 0x0B := by decide
  let reg := Function.update x.1.reg 0x0A 0x2F
  have hreg : (runBody RtcCall.initRtc.body x).1.reg =
      Function.update reg 0x0B (reg 0x0B ||| 0x40) := rfl
  have hprev : reg 0x0B = x.1.reg 0x0B := Function.update_of_ne hne.symm _ _
  have hrate : reg 0x0A = 0x2F := Function.update_self _ _ _
  rw [rates, regA, hreg, Function.update_self, Function.update_of_ne hne, hprev, hrate]

/-- A call on its own. -/
theorem rates_runBody (call : RtcCall) (x : Cmos × BitVec 8) :
    (runBody call.body x).1.rates = call.apply x.1.rates := by
  cases call with
  | initRtc => exact rates_initRtc x
  | rtcOpen => exact rates_setRate _ x
  | rtcWrite junk freq => exact rates_setRate _ x

end Cmos

namespace RtcCall

/-- A call that sets a rate of four bits. -/
def Proper (c : RtcCall) : Prop := c ≠ initRtc ∧ c.rate &&& 0xF0 = 0

/-- Proper calls, one after another. -/
theorem foldl_proper {ι : Type*} {order : List (ι × RtcCall)} (h : ∀ x ∈ order, x.2.Proper)
    (r : BitVec 8 × BitVec 8) :
    (order.foldl (fun r x ↦ x.2.apply r) r).1 &&& 0xF0 = r.1 &&& 0xF0 ∧
      (order.foldl (fun r x ↦ x.2.apply r) r).2 = r.2 ∧
      ∀ x ∈ order.getLast?, (order.foldl (fun r x ↦ x.2.apply r) r).1 &&& 0x0F = x.2.rate := by
  induction order using List.reverseRecOn generalizing r with
  | nil => exact ⟨rfl, rfl, nofun⟩
  | append_singleton order x ih =>
      obtain ⟨hhigh, hb, -⟩ := ih (fun y hy ↦ h y (List.mem_append_left _ hy)) r
      obtain ⟨hne, hrate⟩ := h x (List.mem_append_right _ List.mem_cons_self)
      rw [List.foldl_append, List.foldl_cons, List.foldl_nil, List.getLast?_concat]
      generalize order.foldl (fun r x ↦ x.2.apply r) r = r' at *
      obtain ⟨a, b⟩ := r'
      have happly : x.2.apply (a, b) = ((a &&& 0xF0) ||| x.2.rate, b) := by
        cases hx : x.2 with
        | initRtc => exact absurd hx hne
        | _ => rfl
      have hsplit : x.2.rate &&& 0x0F = x.2.rate := by
        have hall : x.2.rate &&& (0xF0 ||| 0x0F) = x.2.rate := BitVec.and_allOnes
        rw [BitVec.and_or_distrib_left, hrate] at hall
        exact BitVec.zero_or.symm.trans hall
      rw [happly]
      refine ⟨?_, hb, fun y hy ↦ ?_⟩
      · rw [BitVec.and_or_distrib_right, hrate, BitVec.and_assoc, BitVec.and_self]
        exact BitVec.or_zero.trans hhigh
      · obtain rfl := Option.some.inj hy
        have hnone : (0xF0 : BitVec 8) &&& 0x0F = 0#8 := rfl
        rw [BitVec.and_or_distrib_right, hsplit, BitVec.and_assoc, hnone, BitVec.and_zero,
          BitVec.zero_or]

end RtcCall

/-! ## The rate under interrupts -/

variable {ι : Type*} [DecidableEq ι]

/-- **No rate is lost.**  Whatever interrupts come and whatever processes go on where interrupts
are on, the section that the current process may be inside comes to its end, and registers A and B
are then what the finished calls leave one after another, in an order that keeps the calls of every
process in its own order.  Where all of these set a rate of four bits, register B and the high half
of A stay, and the low half is the rate of the last one. -/
theorem rtc_serial {todo : ι → List RtcCall} {s s' : Threads ι Cmos (BitVec 8)}
    (hcode : ∀ i, s.code i = (todo i).flatMap fun c ↦ critical c.body) (hon : s.enabled = true)
    (hreach : Threads.Reaches Cmos.interrupt s s') :
    ∃ n t, t = s'.advance n ∧ (s'.enabled = true → n = 0) ∧ t.enabled = true ∧
      ∃ order : List (ι × RtcCall),
        (∀ i, ∃ rest, todo i = ((order.filter fun x ↦ x.1 = i).map (·.2)) ++ rest ∧
          t.code i = rest.flatMap fun c ↦ critical c.body) ∧
        t.shared.rates = order.foldl (fun r x ↦ x.2.apply r) s.shared.rates ∧
        ((∀ x ∈ order, x.2.Proper) →
          t.shared.regA &&& 0xF0 = s.shared.regA &&& 0xF0 ∧
          t.shared.reg 0x0B = s.shared.reg 0x0B ∧
          ∀ x ∈ order.getLast?, t.shared.regA &&& 0x0F = x.2.rate) := by
  obtain ⟨es, hrun⟩ := hreach
  obtain ⟨n, hzero, hon', h, hview, -, hbetween⟩ :
      ∃ n, (s'.enabled = true → n = 0) ∧ (s'.advance n).enabled = true ∧ ∃ h,
        (s'.advance n).shared.rates =
          replay (fun (_ : Handler) r ↦ r) RtcCall.apply h s.shared.rates ∧ events h = es ∧
        ∀ i, Between RtcCall.body todo h (s'.advance n).code i :=
    hrun.settles Cmos.rates_runBody Cmos.rates_interrupt hon hcode
  rw [replay_quiet] at hview
  refine ⟨n, _, rfl, hzero, hon', order h, fun i ↦ ?_, hview, fun hproper ↦ ?_⟩
  · rw [← callsOf_eq]
    exact hbetween i
  · have hfold := RtcCall.foldl_proper hproper s.shared.rates
    rw [← hview] at hfold
    exact hfold

/-- What two processes ask for: one opens the clock, and one wants 32 ticks a second. -/
def twoClients (i : Bool) : List RtcCall := if i then [.rtcWrite 0 32] else [.rtcOpen]

def twoStart : Threads Bool Cmos (BitVec 8) :=
  ⟨⟨0, fun _ ↦ 0x26⟩, true, false, fun _ ↦ 0,
    fun i ↦ (twoClients i).flatMap fun c ↦ critical c.body⟩

/-- The second process goes on from an interrupt, when the first one has opened the clock. -/
def twoSwitched : Threads Bool Cmos (BitVec 8) :=
  let s := twoStart.advance 6
  { s with shared := Cmos.interrupt .rtcInterrupt s.shared, current := true }

/-- Inside the section of the second process. -/
theorem rtc_serial_two : ∃ n t, t = (twoSwitched.advance 3).advance n ∧ t.enabled = true ∧
    ∃ order : List (Bool × RtcCall),
      t.shared.rates = order.foldl (fun r x ↦ x.2.apply r) (0x26, 0x26) := by
  have hswitched : Threads.Run Cmos.interrupt twoStart [.rtcInterrupt] twoSwitched :=
    (Threads.Run.refl.advance 6).interrupt rfl Handler.rtcInterrupt true
  have hreach : Threads.Reaches Cmos.interrupt twoStart (twoSwitched.advance 3) :=
    ⟨_, hswitched.advance 3⟩
  have hcode (i : Bool) : twoStart.code i = (twoClients i).flatMap fun c ↦ critical c.body := rfl
  obtain ⟨n, t, ht, -, hon, order, -, hrates, -⟩ := rtc_serial hcode rfl hreach
  exact ⟨n, t, ht, hon, order, hrates⟩

/-- Without `cli`, the byte that is meant for register A goes to register D. -/
example : (((⟨0, fun _ ↦ 0x26⟩ : Cmos).select 0x8A |>.interrupt .rtcInterrupt).write 0x2B).regA =
    0x26 := by
  decide

/-! ## The screen -/

namespace Console

/-- `terminal_write(1, buf, nbytes)` between `cli` and `sti`. -/
def writeBody (buf : List UInt8) : List (Console × Unit → Console × Unit) :=
  buf.map fun c x ↦ (x.1.output (.putc c), x.2)

/-- What an interrupt does to the screen: the keyboard echoes a key, clears the screen or switches
terminals, or nothing happens. -/
def interrupt : Option ConsoleOp → Console → Console
  | some op, c => c.step op
  | none, c => c

/-- The operations of a history. -/
def opsOf : Option ConsoleOp ⊕ ι × List UInt8 → List ConsoleOp
  | .inl e => e.toList
  | .inr (_, buf) => buf.map fun c ↦ .output (.putc c)

theorem runBody_writeBody (buf : List UInt8) (x : Console × Unit) :
    (runBody (writeBody buf) x).1 = x.1.run (buf.map fun c ↦ .output (.putc c)) := by
  induction buf generalizing x with
  | nil => rfl
  | cons c buf ih => exact ih _

omit [DecidableEq ι] in
theorem replay_run (h : List (Option ConsoleOp ⊕ ι × List UInt8)) (c : Console) :
    replay interrupt (fun buf c ↦ c.run (buf.map fun c ↦ .output (.putc c))) h c =
      c.run (h.flatMap opsOf) := by
  induction h generalizing c with
  | nil => rfl
  | cons x h ih =>
      rw [List.flatMap_cons, run, List.foldl_append]
      refine Eq.trans ?_ (ih _)
      cases x with
      | inl e => cases e <;> rfl
      | inr x => rfl

/-- **Output is not torn.**  Whatever interrupts come and whatever processes go on where interrupts
are on, the write that the current process may be inside comes to its end, and the screen is then
what whole writes and the keys and switches that came leave one after another. -/
theorem writes_serial {todo : ι → List (List UInt8)} {s s' : Threads ι Console Unit}
    {es : List (Option ConsoleOp)}
    (hcode : ∀ i, s.code i = (todo i).flatMap fun buf ↦ critical (writeBody buf))
    (hon : s.enabled = true) (hrun : Threads.Run interrupt s es s') :
    ∃ n t, t = s'.advance n ∧ (s'.enabled = true → n = 0) ∧ t.enabled = true ∧
      ∃ h : List (Option ConsoleOp ⊕ ι × List UInt8),
        events h = es ∧ (∀ i, Between writeBody todo h t.code i) ∧
          t.shared = s.shared.run (h.flatMap opsOf) := by
  obtain ⟨n, hzero, hon', h, hview, hes, hbetween⟩ :
      ∃ n, (s'.enabled = true → n = 0) ∧ (s'.advance n).enabled = true ∧ ∃ h,
        id (s'.advance n).shared = replay interrupt
          (fun buf c ↦ c.run (buf.map fun c ↦ .output (.putc c))) h (id s.shared) ∧ events h = es ∧
        ∀ i, Between writeBody todo h (s'.advance n).code i :=
    hrun.settles runBody_writeBody (fun _ _ ↦ rfl) hon hcode
  exact ⟨n, _, rfl, hzero, hon', h, hes, hbetween, hview.trans (replay_run h s.shared)⟩

/-- What two processes print. -/
def twoTexts (i : Bool) : List (List UInt8) := if i then [[0x63]] else [[0x61, 0x62]]

/-- They start at the boot screen. -/
def twoWriters (mem : VideoMem) : Threads Bool Console Unit :=
  ⟨boot mem, true, false, fun _ ↦ (), fun i ↦
    (twoTexts i).flatMap fun buf ↦ critical (writeBody buf)⟩

/-- A key is echoed, and the second process goes on. -/
def twoEchoed (mem : VideoMem) : Threads Bool Console Unit :=
  { twoWriters mem with
    shared := interrupt (some (.output (.putc 0x6b))) (boot mem)
    current := true }

/-- It is inside its write. -/
theorem writes_serial_two : ∃ n t, t = ((twoEchoed fun _ ↦ 0).advance 2).advance n ∧
    ∃ h : List (Option ConsoleOp ⊕ Bool × List UInt8),
      events h = [some (.output (.putc 0x6b))] ∧
        t.shared = (boot fun _ ↦ 0).run (h.flatMap opsOf) := by
  have hcode (i : Bool) : (twoWriters fun _ ↦ 0).code i =
      (twoTexts i).flatMap fun buf ↦ critical (writeBody buf) := rfl
  have hechoed : Threads.Run interrupt (twoWriters fun _ ↦ 0) [some (.output (.putc 0x6b))]
      (twoEchoed fun _ ↦ 0) := Threads.Run.refl.interrupt rfl _ true
  obtain ⟨n, t, ht, -, -, h, hes, -, hshared⟩ := writes_serial hcode rfl (hechoed.advance 2)
  exact ⟨n, t, ht, h, hes, hshared⟩

end Console

end Illinix
