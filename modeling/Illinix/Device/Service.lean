import Illinix.Base.Run
import Illinix.Device.I8259
import Illinix.Device.Idt

/-!
# Interrupts in service

A line that the processor has taken is in service until an end-of-interrupt command names
it, and blocks every line of lower priority up to then.  The handlers of the kernel send
that command at different points: `pit_handler` before it switches to another process,
`rtc_interrupt_handler` as two writes, one to each chip, and `kb_interrupt_do` once at its
end, or, when the key asks for another terminal, once before the switch and a second time
whenever the process comes back.  A switch leaves the rest of a handler on a kernel stack,
for later or for never.

`interrupts_served` says that this adds up, in whatever order lines are raised, interrupts
are taken, handlers are interrupted, left, taken up again and abandoned, and masks of the
four lines in use are changed: a line is only in service while some handler that has not
been left still has the write in front of it, so none is blocked for good.  Whether the
interrupt flag is set is not tracked: the runs include those where an interrupt comes
between any two steps of a handler.
-/

namespace Illinix

open Base

/-! ## The chips -/

/-- What a chip has besides its mask register: the lines that are requested, and those in
service. -/
structure Requests where
  irr : Nat → Bool
  isr : Nat → Bool

namespace Requests

/-- A write to the command port: an initialisation, or the end of interrupt of one line.
The kernel sends no other commands. -/
def command (r : Requests) (value : BitVec 8) : Requests :=
  if value.getLsbD 4 then ⟨fun _ ↦ false, fun _ ↦ false⟩
  else if value &&& 0xF8 = 0x60 then
    { r with isr := Function.update r.isr (value &&& 7).toNat false }
  else r

/-- The line that the chip passes on: the requested one of the highest priority, if it is not
masked, with none in service before it or on it. -/
def select (r : Requests) (imr : BitVec 8) : Option Nat :=
  (List.range 8).find? fun i ↦
    r.irr i && !imr.getLsbD i && !(List.range (i + 1)).any fun j ↦ r.isr j

/-- A line is taken into service. -/
def serve (r : Requests) (i : Nat) : Requests where
  irr := Function.update r.irr i false
  isr := Function.update r.isr i true

/-- A line is requested. -/
def raise (r : Requests) (i : Nat) : Requests := { r with irr := Function.update r.irr i true }

end Requests

/-- The two chips. -/
structure Lines where
  pic : Pic
  master : Requests
  slave : Requests

namespace Lines

def outb (value : BitVec 8) (port : Nat) (s : Lines) : Lines where
  pic := Pic.outb value port s.pic
  master := if port = master8259Port then s.master.command value else s.master
  slave := if port = slave8259Port then s.slave.command value else s.slave

/-- A device raises its line. -/
def raise (n : Nat) (s : Lines) : Lines :=
  if n < 8 then { s with master := s.master.raise n } else { s with slave := s.slave.raise (n - 8) }

/-- The processor takes an interrupt.  The slave is on line 2 of the master, and is asked for
the line when the master passes on that one. -/
def acknowledge (s : Lines) : Option (Nat × Lines) :=
  let fromSlave := s.slave.select s.pic.slave.imr
  let master := { s.master with irr := Function.update s.master.irr 2 fromSlave.isSome }
  match master.select s.pic.master.imr with
  | none => none
  | some i =>
      if i = 2 then
        fromSlave.map fun j ↦ (8 + j, { s with master := master.serve 2, slave := s.slave.serve j })
      else some (i, { s with master := master.serve i })

end Lines

/-- The vector of a line. -/
def lineVector (n : Nat) : Nat :=
  if n < 8 then icw2Master.toNat + n else icw2Slave.toNat + (n - 8)

/-! ## The handlers -/

/-- `EOI`. -/
def eoi : BitVec 8 := 0x60

/-- The writes of `send_eoi`. -/
def sendEoi (irqNum : Nat) : List (BitVec 8 × Nat) :=
  if irqNum ≥ 8 then
    [(eoi + 2, master8259Port), (eoi ||| BitVec.ofNat 8 (irqNum - 8), slave8259Port)]
  else [(eoi ||| BitVec.ofNat 8 irqNum, master8259Port)]

/-- What a handler does, as far as the chips see it. -/
inductive Task
  | out (value : BitVec 8) (port : Nat)
  | /-- Anything else, in which the process stays. -/
    work
  | /-- A call that can switch to another process. -/
    leave
deriving DecidableEq, Repr

def eoiTasks (irqNum : Nat) : List Task := (sendEoi irqNum).map fun w ↦ .out w.1 w.2

/-- The handlers that the controllers lead to; `switches` tells whether the key asks for
another terminal. -/
def Handler.tasks (switches : Bool) : Handler → List Task
  | .pitInterrupt => eoiTasks 0 ++ [.leave]
  | .rtcInterrupt => eoiTasks 8 ++ [.work]
  | .kbInterrupt =>
      if switches then .work :: (eoiTasks 1 ++ [.leave, .work] ++ eoiTasks 1)
      else .work :: eoiTasks 1
  | _ => []

/-- The chips, and the handlers that have started and not returned, with their lines and what
they still do. -/
structure Service where
  lines : Lines
  running : List (Nat × List Task)

/-- What can happen. -/
inductive Irq
  | raise (n : Nat)
  | /-- The processor takes an interrupt. -/
    deliver (switches : Bool)
  | /-- A handler does its next step, or returns. -/
    run (i : Nat)
  | /-- The process that a handler has left for is not resumed there. -/
    abandon (i : Nat)
  | mask (c : IrqCall)

namespace Service

/-- The state after an event.  An interrupt on a line that `load_idt` has no handler for has
no successor: its gate leads to address 0. -/
def next (s : Service) : Irq → Option Service
  | .raise n => some { s with lines := s.lines.raise n }
  | .deliver switches =>
      match s.lines.acknowledge with
      | none => none
      | some (n, lines) =>
          (idtHandlers.lookup (lineVector n)).map fun h ↦
            ⟨lines, (n, h.tasks switches) :: s.running⟩
  | .run i =>
      match s.running[i]? with
      | none => none
      | some (_, []) => some { s with running := s.running.eraseIdx i }
      | some (n, .out value port :: ts) =>
          some ⟨s.lines.outb value port, s.running.set i (n, ts)⟩
      | some (n, _ :: ts) => some { s with running := s.running.set i (n, ts) }
  | .abandon i =>
      match s.running[i]? with
      | some (_, .leave :: _) => some { s with running := s.running.eraseIdx i }
      | _ => none
  | .mask c => some { s with lines := { s.lines with pic := c.apply s.lines.pic } }

end Service

instance (s : Pic) (n : Nat) : Decidable (s.Masked n) :=
  inferInstanceAs (Decidable (if n < 8 then _ else _))

/-- The lines that the kernel uses: the clock, the keyboard, the slave and the RTC. -/
def InUse (n : Nat) : Prop := n = 0 ∨ n = 1 ∨ n = 2 ∨ n = 8

instance (n : Nat) : Decidable (InUse n) := inferInstanceAs (Decidable (_ ∨ _))

/-- Line 2 of the master belongs to the slave, and the kernel masks and unmasks no other lines
than its own. -/
def Irq.Valid : Irq → Prop
  | .raise n => n < 16 ∧ n ≠ 2
  | .mask c => InUse c.irqNum
  | _ => True

instance : DecidablePred Irq.Valid
  | .raise _ => inferInstanceAs (Decidable (_ ∧ _))
  | .mask _ => inferInstanceAs (Decidable (InUse _))
  | .deliver _ => inferInstanceAs (Decidable True)
  | .run _ => inferInstanceAs (Decidable True)
  | .abandon _ => inferInstanceAs (Decidable True)

/-- The calls of `entry`. -/
def entryCalls : List IrqCall := [.enable 1, .enable 2, .enable 8, .enable 0]

/-- The chips when `entry` has enabled its lines, with some lines requested already.  None is in
service: `init_rtc` has turned interrupts on before, with nothing masked, but none has come. -/
def Service.start (s : Pic) (master slave : Nat → Bool) : Service where
  lines := ⟨picRun s entryCalls, ⟨master, fun _ ↦ false⟩, ⟨slave, fun _ ↦ false⟩⟩
  running := []

/-! ## What is owed -/

/-- What a handler does before it can be left. -/
def owing (ts : List Task) : List Task := ts.takeWhile (· ≠ .leave)

/-- Some handler is going to end the interrupt of line `i` at the chip. -/
def Service.Owes (s : Service) (port i : Nat) : Prop :=
  ∃ h ∈ s.running, Task.out (eoi ||| BitVec.ofNat 8 i) port ∈ owing h.2

/-- All writes in front of a handler are ends of interrupts. -/
def EndsOnly (ts : List Task) : Prop :=
  ∀ value port, Task.out value port ∈ ts →
    (∃ i, i < 8 ∧ value = eoi ||| BitVec.ofNat 8 i) ∧
      (port = master8259Port ∨ port = slave8259Port)

/-- The lines in service are owed their end. -/
structure Service.Owed (s : Service) : Prop where
  master : ∀ i, s.lines.master.isr i = true → i < 8 ∧ s.Owes master8259Port i
  slave : ∀ i, s.lines.slave.isr i = true → i < 8 ∧ s.Owes slave8259Port i
  ends : ∀ h ∈ s.running, EndsOnly h.2

namespace Requests

variable {r : Requests} {imr : BitVec 8} {i : Nat}

theorem select_eq_some (h : r.select imr = some i) :
    i < 8 ∧ r.irr i = true ∧ imr.getLsbD i = false := by
  have hmem := List.mem_of_find?_eq_some h
  have hp := List.find?_some h
  rw [Bool.and_eq_true, Bool.and_eq_true, Bool.not_eq_true'] at hp
  exact ⟨List.mem_range.mp hmem, hp.1.1, hp.1.2⟩

/-- With nothing in service, a requested line that is not masked gets one through. -/
theorem select_isSome (hi : i < 8) (hirr : r.irr i = true) (himr : imr.getLsbD i = false)
    (hisr : ∀ j, r.isr j = false) : (r.select imr).isSome := by
  rw [select, List.find?_isSome]
  refine ⟨i, List.mem_range.mpr hi, ?_⟩
  have hany : ((List.range (i + 1)).any fun j ↦ r.isr j) = false := by
    rw [List.any_eq_false]
    intro j _
    rw [hisr j]
    decide
  rw [hirr, himr, hany]
  rfl

/-- The command for line `i`, seen by the chip: bit 4 is clear. -/
theorem eoi_fields {i : Nat} (hi : i < 8) :
    (eoi ||| BitVec.ofNat 8 i).getLsbD 4 = false ∧
      (eoi ||| BitVec.ofNat 8 i) &&& 0xF8 = 0x60 ∧
      ((eoi ||| BitVec.ofNat 8 i) &&& 7).toNat = i := by
  interval_cases i <;> decide

theorem command_eoi (r : Requests) (hi : i < 8) :
    r.command (eoi ||| BitVec.ofNat 8 i) = { r with isr := Function.update r.isr i false } := by
  obtain ⟨hbit, hmask, hlevel⟩ := eoi_fields hi
  rw [command, hbit, if_neg (by decide), if_pos hmask, hlevel]

end Requests

/-- What the processor takes is not masked, and goes into service. -/
theorem Lines.acknowledge_cases {s s' : Lines} {n : Nat} (h : s.acknowledge = some (n, s')) :
    s'.pic = s.pic ∧
      ((n < 8 ∧ n ≠ 2 ∧ s.pic.master.imr.getLsbD n = false ∧
          s'.master.isr = Function.update s.master.isr n true ∧ s'.slave.isr = s.slave.isr) ∨
        ∃ j, j < 8 ∧ n = 8 + j ∧ s.pic.slave.imr.getLsbD j = false ∧
          s'.master.isr = Function.update s.master.isr 2 true ∧
          s'.slave.isr = Function.update s.slave.isr j true) := by
  rw [acknowledge] at h
  dsimp only at h
  split at h
  · cases h
  · rename_i i hsel
    obtain ⟨hi, -, himr⟩ := Requests.select_eq_some hsel
    split at h
    · obtain ⟨j, hj, heq⟩ := Option.map_eq_some_iff.mp h
      obtain ⟨hjlt, -, hjmr⟩ := Requests.select_eq_some hj
      cases heq
      exact ⟨rfl, Or.inr ⟨j, hjlt, rfl, hjmr, rfl, rfl⟩⟩
    · rename_i hne
      cases h
      exact ⟨rfl, Or.inl ⟨hi, hne, himr, rfl, rfl⟩⟩

/-- With nothing in service, a requested line that is not masked makes the processor take an
interrupt. -/
theorem Lines.acknowledge_isSome {s : Lines} {n : Nat} (hn : n < 16) (h2 : n ≠ 2)
    (hmaster : ∀ i, s.master.isr i = false) (hslave : ∀ i, s.slave.isr i = false)
    (hirr : (if n < 8 then s.master.irr n else s.slave.irr (n - 8)) = true)
    (himr : ¬ s.pic.Masked n) (hcascade : ¬ s.pic.Masked 2) : s.acknowledge.isSome := by
  rw [Pic.Masked, if_pos (by decide), Bool.not_eq_true] at hcascade
  generalize hfrom : s.slave.select s.pic.slave.imr = fromSlave
  obtain ⟨i, hi⟩ : ∃ i, Requests.select { s.master with
      irr := Function.update s.master.irr 2 fromSlave.isSome } s.pic.master.imr = some i := by
    rw [← Option.isSome_iff_exists]
    by_cases h8 : n < 8
    · rw [if_pos h8] at hirr
      rw [Pic.Masked, if_pos h8, Bool.not_eq_true] at himr
      refine Requests.select_isSome h8 ?_ himr hmaster
      rw [← hirr]
      exact Function.update_of_ne h2 _ _
    · rw [if_neg h8] at hirr
      rw [Pic.Masked, if_neg h8, Bool.not_eq_true] at himr
      refine Requests.select_isSome (show 2 < 8 by decide) ?_ hcascade hmaster
      rw [← hfrom, Requests.select_isSome (show n - 8 < 8 by omega) hirr himr hslave]
      exact Function.update_self 2 true s.master.irr
  rw [acknowledge]
  dsimp only
  rw [hfrom, hi]
  dsimp only
  by_cases h : i = 2
  · rw [if_pos h]
    subst h
    have hirr2 := (Requests.select_eq_some hi).2.1
    dsimp only at hirr2
    rw [Function.update_self] at hirr2
    rw [Option.isSome_map]
    exact hirr2
  · rw [if_neg h]
    rfl

/-- An end of interrupt does not touch the masks. -/
theorem Pic.outb_eoi {i port : Nat} (hi : i < 8)
    (hport : port = master8259Port ∨ port = slave8259Port) (s : Pic) :
    Pic.outb (eoi ||| BitVec.ofNat 8 i) port s = s := by
  have hbit := (Requests.eoi_fields hi).1
  have hcommand : ∀ c : Chip, c.command (eoi ||| BitVec.ofNat 8 i) = c := fun c ↦ by
    rw [Chip.command, hbit, if_neg (by decide)]
  rcases hport with rfl | rfl
  · rw [Pic.outb, if_pos rfl, hcommand]
  · rw [Pic.outb, if_neg (by decide), if_pos rfl, hcommand]

/-! ## The handlers -/

theorem mem_owing_cons {x t : Task} {ts : List Task} (h : x ∈ owing (t :: ts)) :
    t = x ∨ x ∈ owing ts := by
  rw [owing, List.takeWhile_cons] at h
  split at h
  · exact (List.mem_cons.mp h).imp_left Eq.symm
  · cases h

theorem owing_leave (ts : List Task) : owing (.leave :: ts) = [] := rfl

/-- The handler that a line leads to, -/
theorem handler_of_line {n : Nat} {h : Handler} (hn : n < 16)
    (hl : idtHandlers.lookup (lineVector n) = some h) :
    (n = 0 ∧ h = .pitInterrupt) ∨ (n = 1 ∧ h = .kbInterrupt) ∨ (n = 8 ∧ h = .rtcInterrupt) := by
  -- the list has a handler for three of the sixteen vectors
  have hnone : ∀ n, n < 16 → n ≠ 0 → n ≠ 1 → n ≠ 8 → idtHandlers.lookup (lineVector n) = none := by
    decide
  by_cases h0 : n = 0
  · subst h0
    cases hl
    exact Or.inl ⟨rfl, rfl⟩
  · by_cases h1 : n = 1
    · subst h1
      cases hl
      exact Or.inr (Or.inl ⟨rfl, rfl⟩)
    · by_cases h8 : n = 8
      · subst h8
        cases hl
        exact Or.inr (Or.inr ⟨rfl, rfl⟩)
      · rw [hnone n hn h0 h1 h8] at hl
        cases hl

/-- sends its end before it can be left. -/
theorem owing_tasks {n : Nat} {h : Handler} (switches : Bool) (hn : n < 16)
    (hl : idtHandlers.lookup (lineVector n) = some h) :
    (n < 8 → Task.out (eoi ||| BitVec.ofNat 8 n) master8259Port ∈ owing (h.tasks switches)) ∧
      (8 ≤ n →
        Task.out (eoi ||| BitVec.ofNat 8 2) master8259Port ∈ owing (h.tasks switches) ∧
          Task.out (eoi ||| BitVec.ofNat 8 (n - 8)) slave8259Port ∈ owing (h.tasks switches)) := by
  rcases handler_of_line hn hl with ⟨rfl, rfl⟩ | ⟨rfl, rfl⟩ | ⟨rfl, rfl⟩
  · cases switches <;> decide
  · cases switches <;> decide
  · cases switches <;> decide

theorem endsOnly_eoiTasks {n : Nat} (hn : n < 16) : EndsOnly (eoiTasks n) := by
  intro value port hmem
  rw [eoiTasks, sendEoi] at hmem
  split at hmem
  · rename_i h8
    rw [List.map_cons, List.map_cons, List.map_nil, List.mem_cons, List.mem_singleton] at hmem
    rcases hmem with heq | heq
    · cases heq
      exact ⟨⟨2, by decide, by decide⟩, Or.inl rfl⟩
    · cases heq
      exact ⟨⟨n - 8, by omega, rfl⟩, Or.inr rfl⟩
  · rename_i h8
    rw [List.map_cons, List.map_nil, List.mem_singleton] at hmem
    cases hmem
    exact ⟨⟨n, by omega, rfl⟩, Or.inl rfl⟩

theorem EndsOnly.append {ts ts' : List Task} (h : EndsOnly ts) (h' : EndsOnly ts') :
    EndsOnly (ts ++ ts') := fun value port hmem ↦
  (List.mem_append.mp hmem).elim (h value port) (h' value port)

theorem EndsOnly.cons {t : Task} {ts : List Task} (h : EndsOnly ts)
    (ht : ∀ value port, t ≠ .out value port) : EndsOnly (t :: ts) := fun value port hmem ↦
  (List.mem_cons.mp hmem).elim (fun heq ↦ absurd heq.symm (ht value port)) (h value port)

theorem endsOnly_nil : EndsOnly [] := fun _ _ h ↦ (List.not_mem_nil h).elim

theorem endsOnly_tasks (switches : Bool) (h : Handler) : EndsOnly (h.tasks switches) := by
  have hkb : EndsOnly (eoiTasks 1) := endsOnly_eoiTasks (by decide)
  cases h with
  | pitInterrupt =>
      exact (endsOnly_eoiTasks (n := 0) (by decide)).append
        (endsOnly_nil.cons fun _ _ ↦ Task.noConfusion)
  | rtcInterrupt =>
      exact (endsOnly_eoiTasks (n := 8) (by decide)).append
        (endsOnly_nil.cons fun _ _ ↦ Task.noConfusion)
  | kbInterrupt =>
      cases switches with
      | false => exact hkb.cons fun _ _ ↦ Task.noConfusion
      | true =>
          refine EndsOnly.cons (.append (.append hkb ?_) hkb) fun _ _ ↦ Task.noConfusion
          exact (endsOnly_nil.cons fun _ _ ↦ Task.noConfusion).cons fun _ _ ↦ Task.noConfusion
  | _ => exact endsOnly_nil

/-! ## Every event -/

section Lists

variable {α : Type*} {l : List α} {i : Nat} {a b x : α}

theorem eq_or_mem_set (hi : l[i]? = some a) (hb : b ∈ l) (x : α) : b = a ∨ b ∈ l.set i x := by
  obtain ⟨k, hk⟩ := List.mem_iff_getElem?.mp hb
  by_cases hki : k = i
  · subst hki
    exact Or.inl (Option.some.inj (hk.symm.trans hi))
  · refine Or.inr (List.mem_of_getElem? (i := k) ?_)
    rw [List.getElem?_set_ne (Ne.symm hki), hk]

theorem eq_or_mem_eraseIdx (hi : l[i]? = some a) (hb : b ∈ l) : b = a ∨ b ∈ l.eraseIdx i := by
  obtain ⟨k, hk⟩ := List.mem_iff_getElem?.mp hb
  by_cases hki : k = i
  · subst hki
    exact Or.inl (Option.some.inj (hk.symm.trans hi))
  · exact Or.inr (List.mem_eraseIdx_iff_getElem?.mpr ⟨k, hki, hk⟩)

end Lists

namespace Service

variable {s s' : Service} {port j : Nat}

/-- A handler that returns or is left for good owed nothing. -/
theorem Owes.erase (h : s.Owes port j) {i n : Nat} {ts : List Task}
    (hi : s.running[i]? = some (n, ts)) (hnone : owing ts = []) (lines : Lines) :
    Owes ⟨lines, s.running.eraseIdx i⟩ port j := by
  obtain ⟨x, hx, hmem⟩ := h
  rcases eq_or_mem_eraseIdx hi hx with rfl | hx
  · rw [hnone] at hmem
    cases hmem
  · exact ⟨x, hx, hmem⟩

/-- A step of a handler takes one task away. -/
theorem Owes.step (h : s.Owes port j) {i n : Nat} {t : Task} {ts : List Task}
    (hi : s.running[i]? = some (n, t :: ts)) (lines : Lines) :
    t = .out (eoi ||| BitVec.ofNat 8 j) port ∨ Owes ⟨lines, s.running.set i (n, ts)⟩ port j := by
  obtain ⟨x, hx, hmem⟩ := h
  rcases eq_or_mem_set hi hx (n, ts) with rfl | hx
  · refine (mem_owing_cons hmem).imp_right fun hts ↦ ⟨(n, ts), ?_, hts⟩
    exact List.mem_set (List.getElem?_eq_some_iff.mp hi).1 _
  · exact Or.inr ⟨x, hx, hmem⟩

/-- A write that ends line `i` at one chip ends it there alone. -/
theorem Owed.out (h : s.Owed) {i n : Nat} {value : BitVec 8} {ts : List Task}
    (hi : s.running[i]? = some (n, .out value port :: ts)) :
    Owed ⟨s.lines.outb value port, s.running.set i (n, ts)⟩ := by
  have hends := h.ends _ (List.mem_of_getElem? hi)
  obtain ⟨⟨e, he, hvalue⟩, hport⟩ := hends value port List.mem_cons_self
  have hinj : ∀ {k p : Nat}, k < 8 →
      Task.out value port = .out (eoi ||| BitVec.ofNat 8 k) p → k = e ∧ p = port := by
    intro k p hk heq
    rw [Task.out.injEq, hvalue] at heq
    have hlevel := (Requests.eoi_fields he).2.2
    rw [heq.1, (Requests.eoi_fields hk).2.2] at hlevel
    exact ⟨hlevel, heq.2.symm⟩
  have hset : ∀ x ∈ s.running.set i (n, ts), EndsOnly x.2 := by
    intro x hx
    rcases List.mem_or_eq_of_mem_set hx with hx | rfl
    · exact h.ends x hx
    · exact fun v p hmem ↦ hends v p (List.mem_cons_of_mem _ hmem)
  refine ⟨fun k hk ↦ ?_, fun k hk ↦ ?_, hset⟩
  · by_cases hp : port = master8259Port
    · simp only [Lines.outb, if_pos hp, hvalue, Requests.command_eoi _ he] at hk
      have hke : k ≠ e := by
        rintro rfl
        rw [Function.update_self] at hk
        cases hk
      rw [Function.update_of_ne hke] at hk
      obtain ⟨hlt, howes⟩ := h.master k hk
      refine ⟨hlt, (howes.step hi _).resolve_left fun heq ↦ hke (hinj hlt heq).1⟩
    · simp only [Lines.outb, if_neg hp] at hk
      obtain ⟨hlt, howes⟩ := h.master k hk
      exact ⟨hlt, (howes.step hi _).resolve_left fun heq ↦ hp (hinj hlt heq).2.symm⟩
  · by_cases hp : port = slave8259Port
    · simp only [Lines.outb, if_pos hp, hvalue, Requests.command_eoi _ he] at hk
      have hke : k ≠ e := by
        rintro rfl
        rw [Function.update_self] at hk
        cases hk
      rw [Function.update_of_ne hke] at hk
      obtain ⟨hlt, howes⟩ := h.slave k hk
      refine ⟨hlt, (howes.step hi _).resolve_left fun heq ↦ hke (hinj hlt heq).1⟩
    · simp only [Lines.outb, if_neg hp] at hk
      obtain ⟨hlt, howes⟩ := h.slave k hk
      exact ⟨hlt, (howes.step hi _).resolve_left fun heq ↦ hp (hinj hlt heq).2.symm⟩

/-- Where the lines in service stay, it is enough that every end is still owed. -/
theorem Owed.mono (h : s.Owed) (hmaster : s'.lines.master.isr = s.lines.master.isr)
    (hslave : s'.lines.slave.isr = s.lines.slave.isr)
    (howes : ∀ port j, s.Owes port j → s'.Owes port j)
    (hends : ∀ x ∈ s'.running, EndsOnly x.2) : s'.Owed := by
  refine ⟨fun i hi ↦ ?_, fun i hi ↦ ?_, hends⟩
  · rw [hmaster] at hi
    exact (h.master i hi).imp_right (howes _ _)
  · rw [hslave] at hi
    exact (h.slave i hi).imp_right (howes _ _)

/-- A new handler owes the end of its own line. -/
theorem Owed.deliver (h : s.Owed) {n : Nat} {lines : Lines} {handler : Handler} (switches : Bool)
    (hack : s.lines.acknowledge = some (n, lines))
    (hl : idtHandlers.lookup (lineVector n) = some handler) :
    Owed ⟨lines, (n, handler.tasks switches) :: s.running⟩ := by
  have hkeep : ∀ port j, s.Owes port j →
      Owes ⟨lines, (n, handler.tasks switches) :: s.running⟩ port j := fun port j ⟨x, hx, hmem⟩ ↦
    ⟨x, List.mem_cons_of_mem _ hx, hmem⟩
  have hends : ∀ x ∈ (n, handler.tasks switches) :: s.running, EndsOnly x.2 := by
    intro x hx
    rcases List.mem_cons.mp hx with rfl | hx
    · exact endsOnly_tasks switches handler
    · exact h.ends x hx
  obtain ⟨-, ⟨hn, -, -, hm, hs⟩ | ⟨j, hj, rfl, -, hm, hs⟩⟩ := Lines.acknowledge_cases hack
  · have hown := (owing_tasks switches (by omega) hl).1 hn
    refine ⟨fun i hi ↦ ?_, fun i hi ↦ ?_, hends⟩
    · by_cases hin : i = n
      · subst hin
        exact ⟨hn, _, List.mem_cons_self, hown⟩
      · simp only [hm, Function.update_of_ne hin] at hi
        exact (h.master i hi).imp_right (hkeep _ _)
    · simp only [hs] at hi
      exact (h.slave i hi).imp_right (hkeep _ _)
  · obtain ⟨hcascade, hown⟩ := (owing_tasks switches (by omega) hl).2 (Nat.le_add_right 8 j)
    rw [Nat.add_sub_cancel_left] at hown
    refine ⟨fun i hi ↦ ?_, fun i hi ↦ ?_, hends⟩
    · by_cases hin : i = 2
      · subst hin
        exact ⟨by decide, _, List.mem_cons_self, hcascade⟩
      · simp only [hm, Function.update_of_ne hin] at hi
        exact (h.master i hi).imp_right (hkeep _ _)
    · by_cases hin : i = j
      · subst hin
        exact ⟨hj, _, List.mem_cons_self, hown⟩
      · simp only [hs, Function.update_of_ne hin] at hi
        exact (h.slave i hi).imp_right (hkeep _ _)

theorem Owed.next (h : s.Owed) {e : Irq} (hn : s.next e = some s') : s'.Owed := by
  have herase : ∀ i, ∀ x ∈ s.running.eraseIdx i, EndsOnly x.2 := fun i x hx ↦
    h.ends x (List.mem_of_mem_eraseIdx hx)
  cases e with
  | raise n =>
      cases hn
      refine h.mono ?_ ?_ (fun _ _ ↦ id) h.ends
      · simp only [Lines.raise]
        split <;> rfl
      · simp only [Lines.raise]
        split <;> rfl
  | deliver switches =>
      simp only [Service.next] at hn
      split at hn
      · cases hn
      · rename_i n lines hack
        obtain ⟨handler, hl, rfl⟩ := Option.map_eq_some_iff.mp hn
        exact h.deliver switches hack hl
  | run i =>
      simp only [Service.next] at hn
      split at hn
      · cases hn
      · rename_i n hi
        cases hn
        exact h.mono rfl rfl (fun _ _ ho ↦ ho.erase hi rfl _) (herase i)
      · rename_i n value port ts hi
        cases hn
        exact h.out hi
      · rename_i n t ts hne hi
        cases hn
        refine h.mono rfl rfl (fun port j ho ↦ ?_) fun x hx ↦ ?_
        · exact (ho.step hi _).resolve_left (hne _ _)
        · rcases List.mem_or_eq_of_mem_set hx with hx | rfl
          · exact h.ends x hx
          · exact fun v p hmem ↦
              h.ends _ (List.mem_of_getElem? hi) v p (List.mem_cons_of_mem _ hmem)
  | abandon i =>
      simp only [Service.next] at hn
      split at hn
      · rename_i n ts hi
        cases hn
        exact h.mono rfl rfl (fun _ _ ho ↦ ho.erase hi (owing_leave ts) _) (herase i)
      · cases hn
  | mask c =>
      cases hn
      exact h.mono rfl rfl (fun _ _ ↦ id) h.ends

/-! ## The lines in use -/

/-- The masks are the record's, and only the lines in use have ever been enabled. -/
def Quiet (s : Service) : Prop :=
  ∃ calls, Pic.Follows calls s.lines.pic ∧ (∀ c ∈ calls, InUse c.irqNum) ∧
    (∃ c ∈ calls, c.irqNum < 8) ∧ ∃ c ∈ calls, 8 ≤ c.irqNum ∧ c.irqNum < 16

theorem Quiet.congr (h : s.Quiet) (hpic : s'.lines.pic = s.lines.pic) : s'.Quiet := by
  obtain ⟨calls, hf, hrest⟩ := h
  exact ⟨calls, by rwa [hpic], hrest⟩

/-- A line that is not masked is one of those in use. -/
theorem Quiet.inUse (h : s.Quiet) {n : Nat} (hn : n < 16) (hm : ¬ s.lines.pic.Masked n) :
    InUse n := by
  obtain ⟨calls, hf, huse, hmaster, hslave⟩ := h
  have hlast := ((hf.agrees (hf.master hmaster) (hf.slave hslave)).unmasked n hn).mp hm
  exact huse _ (List.mem_reverse.mp (List.mem_of_find?_eq_some hlast))

theorem Quiet.next (h : s.Quiet) (hs : s.Owed) {e : Irq} (he : e.Valid)
    (hn : s.next e = some s') : s'.Quiet := by
  cases e with
  | raise n =>
      cases hn
      refine h.congr ?_
      simp only [Lines.raise]
      split <;> rfl
  | deliver switches =>
      simp only [Service.next] at hn
      split at hn
      · cases hn
      · rename_i n lines hack
        obtain ⟨handler, -, rfl⟩ := Option.map_eq_some_iff.mp hn
        exact h.congr (Lines.acknowledge_cases hack).1
  | run i =>
      simp only [Service.next] at hn
      split at hn
      · cases hn
      · cases hn
        exact h.congr rfl
      · rename_i n value port ts hi
        cases hn
        obtain ⟨⟨k, hk, rfl⟩, hport⟩ :=
          hs.ends _ (List.mem_of_getElem? hi) value port List.mem_cons_self
        exact h.congr (Pic.outb_eoi hk hport _)
      · cases hn
        exact h.congr rfl
  | abandon i =>
      simp only [Service.next] at hn
      split at hn
      · cases hn
        exact h.congr rfl
      · cases hn
  | mask c =>
      cases hn
      obtain ⟨calls, hf, huse, ⟨cm, hcm, hmlt⟩, cs, hcs, hslt⟩ := h
      refine ⟨calls ++ [c], hf.step, fun x hx ↦ ?_, ⟨cm, List.mem_append_left _ hcm, hmlt⟩, cs,
        List.mem_append_left _ hcs, hslt⟩
      rcases List.mem_append.mp hx with hx | hx
      · exact huse x hx
      · rw [List.mem_singleton.mp hx]
        exact he

end Service

/-- **Interrupts are served.**  Start the chips where `entry` has enabled its lines, with any lines
requested and none in service, and take any run of events.  Then whatever line the processor
takes next is the clock's, the keyboard's or the RTC's, so that `load_idt` has a handler for
it; every line in service is owed its end by a handler that has not been left; and when no
handler owes an end, nothing is in service, so that a requested line that is not masked makes
the processor take an interrupt. -/
theorem interrupts_served (pic : Pic) (hpic : pic.cachedIrqMask = 0xffff)
    (master slave : Nat → Bool) (es : List Irq) (s : Service)
    (hes : AllSteps Service.next (fun _ e ↦ e.Valid) (.start pic master slave) es)
    (hexec : exec Service.next (.start pic master slave) es = some s) :
    (∀ n lines, s.lines.acknowledge = some (n, lines) →
      (n = 0 ∨ n = 1 ∨ n = 8) ∧ (idtHandlers.lookup (lineVector n)).isSome) ∧
    (∀ i, s.lines.master.isr i = true → s.Owes master8259Port i) ∧
    (∀ i, s.lines.slave.isr i = true → s.Owes slave8259Port i) ∧
    ((∀ port i, ¬ s.Owes port i) → ∀ n, n < 16 → n ≠ 2 →
      (if n < 8 then s.lines.master.irr n else s.lines.slave.irr (n - 8)) = true →
      ¬ s.lines.pic.Masked n → ¬ s.lines.pic.Masked 2 → s.lines.acknowledge.isSome) := by
  have hquiet₀ : (Service.start pic master slave).Quiet := by
    refine ⟨entryCalls, Pic.Follows.run hpic entryCalls, by decide, ?_, ?_⟩
    · exact ⟨.enable 1, by decide, by decide⟩
    · exact ⟨.enable 8, by decide, by decide, by decide⟩
  have howed₀ : (Service.start pic master slave).Owed :=
    ⟨fun _ h ↦ Bool.noConfusion h, fun _ h ↦ Bool.noConfusion h,
      fun _ h ↦ (List.not_mem_nil h).elim⟩
  obtain ⟨hq, ho⟩ : s.Quiet ∧ s.Owed := by
    refine hes.along (fun s ↦ s.Quiet ∧ s.Owed) ?_ ⟨hquiet₀, howed₀⟩ es s (List.prefix_refl _) hexec
    rintro s e s' ⟨hq, ho⟩ he hn
    exact ⟨hq.next ho he hn, ho.next hn⟩
  refine ⟨fun n lines hack ↦ ?_, fun i hi ↦ (ho.master i hi).2, fun i hi ↦ (ho.slave i hi).2,
    fun hnone n hn h2 hirr hm hm2 ↦ ?_⟩
  · have huse : n ≠ 2 ∧ InUse n := by
      obtain ⟨-, ⟨hlt, hne, himr, -, -⟩ | ⟨j, hj, rfl, himr, -, -⟩⟩ :=
        Lines.acknowledge_cases hack
      · refine ⟨hne, hq.inUse (by omega) ?_⟩
        rw [Pic.Masked, if_pos hlt, himr]
        decide
      · refine ⟨by omega, hq.inUse (by omega) ?_⟩
        rw [Pic.Masked, if_neg (by omega), Nat.add_sub_cancel_left, himr]
        decide
    obtain ⟨h2, rfl | rfl | rfl | rfl⟩ := huse
    · exact ⟨Or.inl rfl, rfl⟩
    · exact ⟨Or.inr (Or.inl rfl), rfl⟩
    · exact absurd rfl h2
    · exact ⟨Or.inr (Or.inr rfl), rfl⟩
  · refine Lines.acknowledge_isSome hn h2 (fun i ↦ ?_) (fun i ↦ ?_) hirr hm hm2
    · exact Bool.eq_false_iff.mpr fun h ↦ hnone _ _ (ho.master i h).2
    · exact Bool.eq_false_iff.mpr fun h ↦ hnone _ _ (ho.slave i h).2

/-- The RTC interrupts the keyboard's handler between its end of interrupt and the switch; the
process does not come back, and the clock is still taken. -/
theorem interrupts_served_abandoned :
    ∃ s, exec Service.next (.start ⟨⟨0, 0⟩, ⟨0, 0⟩, 0xffff⟩ (fun _ ↦ false) fun _ ↦ false)
        [.raise 1, .deliver true, .run 0, .run 0, .raise 8, .deliver false, .run 0, .run 0,
          .run 0, .run 0, .abandon 0, .raise 0] = some s ∧
      s.lines.acknowledge.isSome := by
  obtain ⟨s, hs⟩ : ∃ s, exec Service.next
      (.start ⟨⟨0, 0⟩, ⟨0, 0⟩, 0xffff⟩ (fun _ ↦ false) fun _ ↦ false)
        [.raise 1, .deliver true, .run 0, .run 0, .raise 8, .deliver false, .run 0, .run 0,
          .run 0, .run 0, .abandon 0, .raise 0] = some s := ⟨_, rfl⟩
  obtain ⟨-, -, -, hfree⟩ := interrupts_served ⟨⟨0, 0⟩, ⟨0, 0⟩, 0xffff⟩ rfl (fun _ ↦ false)
    (fun _ ↦ false) _ s (AllSteps.of_decide (by decide)) hs
  refine ⟨s, hs, ?_⟩
  cases hs
  refine hfree ?_ 0 (by decide) (by decide) rfl (by decide) (by decide)
  rintro port i ⟨x, hx, -⟩
  exact List.not_mem_nil hx

end Illinix
