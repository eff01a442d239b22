import Illinix.Base.Run
import Illinix.Device.Service
import Mathlib.Data.Fintype.Basic

/-!
# Waiting for the clock

`rtc_read` masks the keyboard, clears `flag`, waits until the interrupt handler of the RTC has
set it, and unmasks the keyboard.  Several processes can be in the call at once, and they
share `flag`, the record `cached_irq_mask` and the mask register of the chip.  Nothing holds
them apart, so a step here is one access to one of these: `disable_irq` and `enable_irq`
fetch the record, store it, load its low byte and write that byte to the chip, and any other
process can come in between.

Two things survive every interleaving: a process returns from the call no more often than
the RTC has interrupted, and when no process is in the call, the record has the keyboard
enabled.  The chip itself need not agree with the record then: a process that is held up
between the load and the write of the byte writes an old one.  If that does not happen, the
keyboard is unmasked.
-/

namespace Illinix

open Base

/-- The steps of `enable_irq` and `disable_irq`, for a line of the master. -/
inductive Access
  | fetch
  | store (record : BitVec 32)
  | load
  | out (value : BitVec 8)
deriving DecidableEq, Repr

namespace Access

/-- What a step does to the chips and the record. -/
def apply (s : Pic) : Access → Pic
  | fetch => s
  | store record => { s with cachedIrqMask := record }
  | load => s
  | out value => Pic.outb value master8259PortConfig s

/-- The next step, if there is one; `f` is what the call does to the record. -/
def next (s : Pic) (f : BitVec 32 → BitVec 32) : Access → Option Access
  | fetch => some (store (f s.cachedIrqMask))
  | store _ => some load
  | load => some (out s.cached21)
  | out _ => none

/-- The steps that are left of a call that nothing comes in between; there are four. -/
def alone (f : BitVec 32 → BitVec 32) : Nat → Access → Pic → Pic
  | 0, a, s => a.apply s
  | fuel + 1, a, s =>
      match a.next s f with
      | none => a.apply s
      | some a' => alone f fuel a' (a.apply s)

/-- They are `enable_irq` and `disable_irq` of the keyboard's line. -/
theorem alone_fetch (f : BitVec 32 → BitVec 32) (s : Pic) :
    alone f 3 .fetch s = Pic.setRecord 1 f s := rfl

end Access

/-- Where a process stands in `rtc_read`: in front of what. -/
inductive Phase
  | idle
  | disable (a : Access)
  | reset
  | waiting
  | enable (a : Access)
deriving DecidableEq, Repr

namespace Phase

/-- In front of the write of a byte. -/
def Loaded (ph : Phase) (value : BitVec 8) : Prop :=
  ph = disable (.out value) ∨ ph = enable (.out value)

/-- Between the store of the record and the write to the chip. -/
def Writing (ph : Phase) : Prop :=
  ph = disable .load ∨ ph = enable .load ∨ ∃ value, ph.Loaded value

/-- Between the two stores to the record. -/
def Holding (ph : Phase) : Prop :=
  ph = disable .load ∨ (∃ value, ph = disable (.out value)) ∨ ph = reset ∨ ph = waiting ∨
    ph = enable .fetch ∨ ∃ record, ph = enable (.store record)

/-- Between the load of the byte and the write. -/
def isLoaded : Phase → Bool
  | disable (.out _) => true
  | enable (.out _) => true
  | _ => false

theorem Loaded.isLoaded {ph : Phase} {value : BitVec 8} (h : ph.Loaded value) :
    ph.isLoaded = true := by
  rcases h with rfl | rfl <;> rfl

/-- In the loop. -/
def isWaiting : Phase → Bool
  | waiting => true
  | _ => false

/-- Behind the loop. -/
def isWoken : Phase → Bool
  | enable _ => true
  | _ => false

/-- In front of the last step. -/
def isLast : Phase → Bool
  | enable (.out _) => true
  | _ => false

end Phase

/-- The chips and their record, `flag`, and the processes. -/
structure Readers (P : Type) where
  pic : Pic
  flag : Bool
  phase : P → Phase

inductive CallEvent (P : Type)
  | /-- A process calls `rtc_read`. -/
    call (p : P)
  | /-- A process in the call does its next step. -/
    step (p : P)
  | /-- The RTC interrupts. -/
    rtcInterrupt
deriving DecidableEq, Repr

namespace Readers

variable {P : Type} [DecidableEq P]

def moveTo (s : Readers P) (p : P) (ph : Phase) : Readers P :=
  { s with phase := Function.update s.phase p ph }

/-- One step of `rtc_read`. -/
def stepOf (s : Readers P) (p : P) : Option (Readers P) :=
  match s.phase p with
  | .idle => none
  | .disable a =>
      some ({ s with pic := a.apply s.pic }.moveTo p
        (match a.next s.pic (· ||| 1#32 <<< 1) with
          | some a' => .disable a'
          | none => .reset))
  | .reset => some ({ s with flag := false }.moveTo p .waiting)
  | .waiting => some (if s.flag then s.moveTo p (.enable .fetch) else s)
  | .enable a =>
      some ({ s with pic := a.apply s.pic }.moveTo p
        (match a.next s.pic (· &&& ~~~(1#32 <<< 1)) with
          | some a' => .enable a'
          | none => .idle))

def next (s : Readers P) : CallEvent P → Option (Readers P)
  | .call p => if s.phase p = .idle then some (s.moveTo p (.disable .fetch)) else none
  | .step p => s.stepOf p
  | .rtcInterrupt => some { s with flag := true }

/-- The chips when `entry` has enabled its lines, and no process in the call. -/
def start (P : Type) (pic : Pic) (flag : Bool) : Readers P :=
  ⟨picRun pic entryCalls, flag, fun _ ↦ .idle⟩

/-- The event is the step that process `p` returns after. -/
def returnsAt (s : Readers P) (p : P) (e : CallEvent P) : Bool :=
  decide (e = .step p) && (s.phase p).isLast

/-- How often process `p` returns in a run. -/
def returns (p : P) : Readers P → List (CallEvent P) → Nat
  | _, [] => 0
  | s, e :: es =>
      (s.returnsAt p e).toNat + ((s.next e).map fun s' ↦ returns p s' es).getD 0

/-- No other process moves between the load of the byte and the write of a process. -/
def Unsplit (s : Readers P) (e : CallEvent P) : Prop :=
  ∀ q, (s.phase q).isLoaded = true → e = .step q ∨ e = .rtcInterrupt

instance [Fintype P] (s : Readers P) (e : CallEvent P) : Decidable (s.Unsplit e) :=
  inferInstanceAs (Decidable (∀ _, _ → _))

section MoveTo

variable (s : Readers P) (p : P) (ph : Phase)

@[simp] theorem moveTo_phase_self : (s.moveTo p ph).phase p = ph := Function.update_self ..
@[simp] theorem moveTo_pic : (s.moveTo p ph).pic = s.pic := rfl

theorem moveTo_phase_of_ne {q : P} (h : q ≠ p) : (s.moveTo p ph).phase q = s.phase q :=
  Function.update_of_ne h ..

end MoveTo

variable {s s' : Readers P} {p q : P} {e : CallEvent P}

/-- **Everything a step of a process can do.** -/
theorem stepOf_cases (h : s.stepOf p = some s') :
    (∃ a ph, s.phase p = .disable a ∧ s' = { s with pic := a.apply s.pic }.moveTo p ph ∧
      ((∃ a', a.next s.pic (· ||| 1#32 <<< 1) = some a' ∧ ph = .disable a') ∨
        (∃ value, a = .out value) ∧ ph = .reset)) ∨
    (s.phase p = .reset ∧ s' = { s with flag := false }.moveTo p .waiting) ∨
    (s.phase p = .waiting ∧ s.flag = true ∧ s' = s.moveTo p (.enable .fetch)) ∨
    (s.phase p = .waiting ∧ s.flag = false ∧ s' = s) ∨
    ∃ a ph, s.phase p = .enable a ∧ s' = { s with pic := a.apply s.pic }.moveTo p ph ∧
      ((∃ a', a.next s.pic (· &&& ~~~(1#32 <<< 1)) = some a' ∧ ph = .enable a') ∨
        (∃ value, a = .out value) ∧ ph = .idle) := by
  rw [stepOf] at h
  cases hp : s.phase p with
  | idle =>
      rw [hp] at h
      cases h
  | disable a =>
      rw [hp] at h
      cases h
      refine Or.inl ⟨a, _, rfl, rfl, ?_⟩
      cases a with
      | out value => exact Or.inr ⟨⟨value, rfl⟩, rfl⟩
      | _ => exact Or.inl ⟨_, rfl, rfl⟩
  | reset =>
      rw [hp] at h
      cases h
      exact Or.inr (Or.inl ⟨rfl, rfl⟩)
  | waiting =>
      rw [hp] at h
      cases h
      by_cases hf : s.flag = true
      · rw [if_pos hf]
        exact Or.inr (Or.inr (Or.inl ⟨rfl, hf, rfl⟩))
      · rw [if_neg hf]
        exact Or.inr (Or.inr (Or.inr (Or.inl ⟨rfl, Bool.eq_false_iff.mpr hf, rfl⟩)))
  | enable a =>
      rw [hp] at h
      cases h
      refine Or.inr (Or.inr (Or.inr (Or.inr ⟨a, _, rfl, rfl, ?_⟩)))
      cases a with
      | out value => exact Or.inr ⟨⟨value, rfl⟩, rfl⟩
      | _ => exact Or.inl ⟨_, rfl, rfl⟩

/-! ## Returning -/

/-- Process `p` gets out of the loop without another interrupt. -/
def awake (s : Readers P) (p : P) : Bool :=
  (s.phase p).isWoken || ((s.phase p).isWaiting && s.flag)

omit [DecidableEq P] in
theorem awake_of_phase_eq (hphase : s'.phase p = s.phase p)
    (hflag : s'.flag = true → s.flag = true) : (s'.awake p).toNat ≤ (s.awake p).toNat := by
  have hmono : ∀ a b f f' : Bool, (f' = true → f = true) →
      (a || b && f').toNat ≤ (a || b && f).toNat := by decide
  rw [awake, awake, hphase]
  exact hmono _ _ _ _ hflag

/-- No step of a process sets `flag`, and only its own steps move it. -/
theorem stepOf_other (h : s.stepOf q = some s') (hpq : p ≠ q) :
    s'.phase p = s.phase p ∧ (s'.flag = true → s.flag = true) := by
  rcases stepOf_cases h with ⟨a, ph, -, rfl, -⟩ | ⟨-, rfl⟩ | ⟨-, -, rfl⟩ | ⟨-, -, rfl⟩ |
    ⟨a, ph, -, rfl, -⟩
  · exact ⟨moveTo_phase_of_ne _ _ _ hpq, id⟩
  · exact ⟨moveTo_phase_of_ne _ _ _ hpq, fun hf ↦ Bool.noConfusion hf⟩
  · exact ⟨moveTo_phase_of_ne _ _ _ hpq, id⟩
  · exact ⟨rfl, id⟩
  · exact ⟨moveTo_phase_of_ne _ _ _ hpq, id⟩

/-- What a process does itself: it gets out of the loop when it is awake. -/
theorem stepOf_self (h : s.stepOf p = some s') :
    (s.phase p).isLast.toNat + (s'.awake p).toNat ≤ (s.awake p).toNat := by
  rcases stepOf_cases h with ⟨a, ph, hp, rfl, hph⟩ | ⟨hp, rfl⟩ | ⟨hp, hf, rfl⟩ | ⟨hp, hf, rfl⟩ |
    ⟨a, ph, hp, rfl, hph⟩
  · have hawake : ph.isWoken = false ∧ ph.isWaiting = false := by
      rcases hph with ⟨a', -, rfl⟩ | ⟨-, rfl⟩ <;> exact ⟨rfl, rfl⟩
    rw [awake, moveTo_phase_self, hawake.1, hawake.2, hp]
    exact Nat.zero_le _
  · rw [awake, moveTo_phase_self, hp]
    exact Nat.zero_le _
  · rw [awake, awake, moveTo_phase_self, hp, hf]
    exact Nat.le_refl _
  · rw [awake, hp, hf]
    exact Nat.le_refl _
  · rw [awake, awake, moveTo_phase_self, hp]
    rcases hph with ⟨a', ha', rfl⟩ | ⟨⟨value, rfl⟩, rfl⟩
    · cases a with
      | out value => cases ha'
      | _ => exact Nat.le_refl _
    · exact Nat.le_refl _

/-- What an event adds to the returns, an interrupt has paid for. -/
theorem returnsAt_le (h : s.next e = some s') :
    (s.returnsAt p e).toNat + (s'.awake p).toNat ≤
      (s.awake p).toNat + (decide (e = .rtcInterrupt)).toNat := by
  cases e with
  | call q =>
      rw [next] at h
      split at h
      · cases h
        have hawake : ((s.moveTo q (.disable .fetch)).awake p).toNat ≤ (s.awake p).toNat := by
          by_cases hpq : p = q
          · subst hpq
            rw [awake, moveTo_phase_self]
            exact Nat.zero_le _
          · exact awake_of_phase_eq (moveTo_phase_of_ne _ _ _ hpq) id
        rw [show s.returnsAt p (.call q) = false from rfl, Bool.toNat_false, Nat.zero_add]
        exact hawake.trans (Nat.le_add_right _ _)
      · cases h
  | step q =>
      refine Nat.le_trans ?_ (Nat.le_add_right _ _)
      by_cases hpq : p = q
      · subst hpq
        rw [returnsAt, decide_eq_true rfl, Bool.true_and]
        exact stepOf_self h
      · have hne : ¬ CallEvent.step q = .step p := fun heq ↦ hpq (CallEvent.step.inj heq).symm
        obtain ⟨hphase, hflag⟩ := stepOf_other h hpq
        rw [returnsAt, decide_eq_false hne, Bool.false_and, Bool.toNat_false, Nat.zero_add]
        exact awake_of_phase_eq hphase hflag
  | rtcInterrupt =>
      rw [show s.returnsAt p .rtcInterrupt = false from rfl, decide_eq_true rfl,
        Bool.toNat_false, Nat.zero_add]
      exact (Bool.toNat_le _).trans (Nat.le_add_left _ _)

/-- A process in front of its last step is awake. -/
theorem returnsAt_le_awake (s : Readers P) (p : P) (e : CallEvent P) :
    (s.returnsAt p e).toNat ≤ (s.awake p).toNat := by
  have hlast : ∀ ph : Phase, ph.isLast = true → ph.isWoken = true := by
    intro ph hph
    cases ph with
    | enable a => rfl
    | _ => cases hph
  rw [returnsAt, awake]
  cases hl : (s.phase p).isLast with
  | false =>
      rw [Bool.and_false]
      exact Nat.zero_le _
  | true =>
      rw [hlast _ hl, Bool.true_or]
      exact Bool.toNat_le _

theorem returns_le (p : P) (es : List (CallEvent P)) (s : Readers P) :
    returns p s es ≤ (s.awake p).toNat + es.count .rtcInterrupt := by
  induction es generalizing s with
  | nil => exact Nat.zero_le _
  | cons e es ih =>
      have hcount : (if (e == .rtcInterrupt) = true then 1 else 0) =
          (decide (e = .rtcInterrupt)).toNat := by
        by_cases he : e = .rtcInterrupt
        · subst he
          rfl
        · rw [if_neg (by rwa [beq_iff_eq]), decide_eq_false he]
          rfl
      rw [returns, List.count_cons, hcount]
      cases hn : s.next e with
      | none =>
          have hlast := s.returnsAt_le_awake p e
          rw [Option.map_none, Option.getD_none]
          omega
      | some s' =>
          have hstep := returnsAt_le (p := p) hn
          have hrest := ih s'
          rw [Option.map_some, Option.getD_some]
          omega

/-- **A process waits for the clock.**  In every run that starts with no process in the call,
a process returns from `rtc_read` no more often than the RTC has interrupted. -/
theorem rtc_read_returns (P : Type) [DecidableEq P] (pic : Pic) (flag : Bool) (p : P)
    (es : List (CallEvent P)) : returns p (start P pic flag) es ≤ es.count .rtcInterrupt := by
  have hle := returns_le p es (start P pic flag)
  have hidle : (start P pic flag).awake p = false := rfl
  rwa [hidle, Bool.toNat_false, Nat.zero_add] at hle

/-! ## The record -/

/-- The keyboard's bit is only set in the record while some process is between its two stores,
and what a process is about to store second has it cleared. -/
structure Held (s : Readers P) : Prop where
  holder : s.pic.cachedIrqMask.getLsbD 1 = true → ∃ q, (s.phase q).Holding
  stored : ∀ q record, s.phase q = .enable (.store record) → record.getLsbD 1 = false

/-- A process that moves on without giving up its hold, while the record stays. -/
theorem Held.move (h : s.Held) {ph : Phase} {pic : Pic} {flag : Bool}
    (hrec : pic.cachedIrqMask = s.pic.cachedIrqMask)
    (hhold : (s.phase p).Holding → ph.Holding)
    (hstored : ∀ record, ph = .enable (.store record) → record.getLsbD 1 = false) :
    Held (moveTo ⟨pic, flag, s.phase⟩ p ph) := by
  refine ⟨fun hbit ↦ ?_, fun q record hq ↦ ?_⟩
  · rw [moveTo_pic, hrec] at hbit
    obtain ⟨q, hq⟩ := h.holder hbit
    by_cases hqp : q = p
    · subst hqp
      exact ⟨q, by rw [moveTo_phase_self]; exact hhold hq⟩
    · exact ⟨q, by rw [moveTo_phase_of_ne _ _ _ hqp]; exact hq⟩
  · by_cases hqp : q = p
    · subst hqp
      rw [moveTo_phase_self] at hq
      exact hstored record hq
    · rw [moveTo_phase_of_ne _ _ _ hqp] at hq
      exact h.stored q record hq

/-- A write to the mask register of the chip leaves the record alone. -/
theorem outb_cachedIrqMask (value : BitVec 8) (port : Nat) (s : Pic) :
    (Pic.outb value port s).cachedIrqMask = s.cachedIrqMask := by
  rw [Pic.outb]
  split
  · rfl
  · split
    · rfl
    · split
      · rfl
      · split <;> rfl

theorem Held.disable (h : s.Held) {a : Access} {ph : Phase} (hp : s.phase p = .disable a)
    (hph : (∃ a', a.next s.pic (· ||| 1#32 <<< 1) = some a' ∧ ph = .disable a') ∨
      (∃ value, a = .out value) ∧ ph = .reset) :
    Held ({ s with pic := a.apply s.pic }.moveTo p ph) := by
  cases a with
  | fetch =>
      obtain ⟨a', ha', rfl⟩ | ⟨⟨_, ha⟩, -⟩ := hph
      · cases ha'
        refine h.move rfl (fun hhold ↦ ?_) fun _ hph ↦ (by cases hph)
        rw [hp] at hhold
        rcases hhold with hh | ⟨_, hh⟩ | hh | hh | hh | ⟨_, hh⟩ <;> cases hh
      · cases ha
  | store record =>
      obtain ⟨a', ha', rfl⟩ | ⟨⟨_, ha⟩, -⟩ := hph
      · cases ha'
        refine ⟨fun _ ↦ ⟨p, by rw [moveTo_phase_self]; exact Or.inl rfl⟩, fun q r hq ↦ ?_⟩
        by_cases hqp : q = p
        · subst hqp
          rw [moveTo_phase_self] at hq
          cases hq
        · rw [moveTo_phase_of_ne _ _ _ hqp] at hq
          exact h.stored q r hq
      · cases ha
  | load =>
      obtain ⟨a', ha', rfl⟩ | ⟨⟨_, ha⟩, -⟩ := hph
      · cases ha'
        exact h.move rfl (fun _ ↦ Or.inr (Or.inl ⟨_, rfl⟩)) fun _ hph ↦ (by cases hph)
      · cases ha
  | out value =>
      obtain ⟨a', ha', -⟩ | ⟨-, rfl⟩ := hph
      · cases ha'
      · exact h.move (outb_cachedIrqMask _ _ _) (fun _ ↦ Or.inr (Or.inr (Or.inl rfl)))
          fun _ hph ↦ (by cases hph)

theorem Held.enable (h : s.Held) {a : Access} {ph : Phase} (hp : s.phase p = .enable a)
    (hph : (∃ a', a.next s.pic (· &&& ~~~(1#32 <<< 1)) = some a' ∧ ph = .enable a') ∨
      (∃ value, a = .out value) ∧ ph = .idle) :
    Held ({ s with pic := a.apply s.pic }.moveTo p ph) := by
  have hnone : ∀ {a : Access}, s.phase p = .enable a → a = .load ∨ (∃ value, a = .out value) →
      ¬ (s.phase p).Holding := by
    rintro a hp ha hhold
    rw [hp] at hhold
    rcases hhold with hh | ⟨_, hh⟩ | hh | hh | hh | ⟨_, hh⟩
    all_goals cases hh
    all_goals rcases ha with ha | ⟨_, ha⟩ <;> cases ha
  cases a with
  | fetch =>
      obtain ⟨a', ha', rfl⟩ | ⟨⟨_, ha⟩, -⟩ := hph
      · cases ha'
        refine h.move rfl (fun _ ↦ Or.inr (Or.inr (Or.inr (Or.inr (Or.inr ⟨_, rfl⟩))))) ?_
        intro record hph
        cases hph
        rw [BitVec.getLsbD_and]
        exact Bool.and_false _
      · cases ha
  | store record =>
      obtain ⟨a', ha', rfl⟩ | ⟨⟨_, ha⟩, -⟩ := hph
      · cases ha'
        refine ⟨fun hbit ↦ ?_, fun q r hq ↦ ?_⟩
        · rw [moveTo_pic] at hbit
          exact absurd hbit (by rw [Access.apply, h.stored p record hp]; decide)
        · by_cases hqp : q = p
          · subst hqp
            rw [moveTo_phase_self] at hq
            cases hq
          · rw [moveTo_phase_of_ne _ _ _ hqp] at hq
            exact h.stored q r hq
      · cases ha
  | load =>
      obtain ⟨a', ha', rfl⟩ | ⟨⟨_, ha⟩, -⟩ := hph
      · cases ha'
        exact h.move rfl (fun hhold ↦ absurd hhold (hnone hp (Or.inl rfl)))
          fun _ hph ↦ (by cases hph)
      · cases ha
  | out value =>
      obtain ⟨a', ha', -⟩ | ⟨-, rfl⟩ := hph
      · cases ha'
      · exact h.move (outb_cachedIrqMask _ _ _)
          (fun hhold ↦ absurd hhold (hnone hp (Or.inr ⟨value, rfl⟩))) fun _ hph ↦ (by cases hph)

theorem Held.next (h : s.Held) (hn : s.next e = some s') : s'.Held := by
  cases e with
  | call q =>
      rw [Readers.next] at hn
      split at hn
      · rename_i hq
        cases hn
        refine h.move rfl (fun hhold ↦ ?_) fun _ hph ↦ (by cases hph)
        rw [hq] at hhold
        rcases hhold with hh | ⟨_, hh⟩ | hh | hh | hh | ⟨_, hh⟩ <;> cases hh
      · cases hn
  | step q =>
      rcases stepOf_cases hn with ⟨a, ph, hp, rfl, hph⟩ | ⟨hp, rfl⟩ | ⟨hp, -, rfl⟩ | ⟨-, -, rfl⟩ |
        ⟨a, ph, hp, rfl, hph⟩
      · exact h.disable hp hph
      · exact h.move rfl (fun _ ↦ Or.inr (Or.inr (Or.inr (Or.inl rfl)))) fun _ hph ↦ (by cases hph)
      · exact h.move rfl (fun _ ↦ Or.inr (Or.inr (Or.inr (Or.inr (Or.inl rfl)))))
          fun _ hph ↦ (by cases hph)
      · exact h
      · exact h.enable hp hph
  | rtcInterrupt =>
      cases hn
      exact ⟨h.holder, h.stored⟩

/-! ## The chip -/

/-- A byte that a process has loaded is the record's, and with no write to the chip to come it
is the chip's as well. -/
structure Settled (s : Readers P) : Prop where
  ready : s.pic.master.awaits = 0
  loaded : ∀ q value, (s.phase q).Loaded value → value = s.pic.cached21
  agrees : (∀ q, ¬ (s.phase q).Writing) → s.pic.master.imr = s.pic.cached21

/-- A process that moves on, with a write to come if there was one. -/
theorem Settled.move (h : s.Settled) (flag : Bool) {ph : Phase}
    (hload : ∀ value, ph.Loaded value → value = s.pic.cached21)
    (hwrite : (s.phase p).Writing → ph.Writing) :
    Settled (moveTo ⟨s.pic, flag, s.phase⟩ p ph) := by
  refine ⟨h.ready, fun q value hq ↦ ?_, fun hnone ↦ h.agrees fun q hq ↦ ?_⟩
  · by_cases hqp : q = p
    · subst hqp
      rw [moveTo_phase_self] at hq
      exact hload value hq
    · rw [moveTo_phase_of_ne _ _ _ hqp] at hq
      exact h.loaded q value hq
  · refine hnone q ?_
    by_cases hqp : q = p
    · subst hqp
      rw [moveTo_phase_self]
      exact hwrite hq
    · rw [moveTo_phase_of_ne _ _ _ hqp]
      exact hq

/-- The steps of a call, whichever it is; `mk` puts the process in front of a step of it. -/
theorem Settled.access (h : s.Settled) (hsplit : s.Unsplit (.step p)) {mk : Access → Phase}
    (hmk : mk = .disable ∨ mk = .enable) {a : Access} {ph done : Phase}
    {f : BitVec 32 → BitVec 32} (hp : s.phase p = mk a) (hdone : done = .reset ∨ done = .idle)
    (hph : (∃ a', a.next s.pic f = some a' ∧ ph = mk a') ∨ (∃ value, a = .out value) ∧ ph = done) :
    Settled ({ s with pic := a.apply s.pic }.moveTo p ph) := by
  have hinj : ∀ {a a' : Access}, mk a = .disable a' ∨ mk a = .enable a' → a = a' := by
    rintro a a' heq
    rcases hmk with rfl | rfl <;> rcases heq with heq | heq <;> cases heq <;> rfl
  have hloaded : ∀ {a : Access} {value}, (mk a).Loaded value → a = .out value := fun hl ↦
    hinj hl
  have hwriting : ∀ {a : Access}, (mk a).Writing ↔ a = .load ∨ ∃ value, a = .out value := by
    intro a
    constructor
    · rintro (heq | heq | ⟨value, hl⟩)
      · exact Or.inl (hinj (Or.inl heq))
      · exact Or.inl (hinj (Or.inr heq))
      · exact Or.inr ⟨value, hloaded hl⟩
    · rintro (rfl | ⟨value, rfl⟩)
      · rcases hmk with rfl | rfl
        · exact Or.inl rfl
        · exact Or.inr (Or.inl rfl)
      · rcases hmk with rfl | rfl
        · exact Or.inr (Or.inr ⟨value, Or.inl rfl⟩)
        · exact Or.inr (Or.inr ⟨value, Or.inr rfl⟩)
  cases a with
  | fetch =>
      obtain ⟨a', ha', rfl⟩ | ⟨⟨_, ha⟩, -⟩ := hph
      · cases ha'
        refine h.move _ (fun value hl ↦ by cases hloaded hl) fun hw ↦ ?_
        rw [hp] at hw
        rcases hwriting.mp hw with ha | ⟨_, ha⟩ <;> cases ha
      · cases ha
  | store record =>
      obtain ⟨a', ha', rfl⟩ | ⟨⟨_, ha⟩, -⟩ := hph
      · cases ha'
        refine ⟨h.ready, fun q value hq ↦ ?_, fun hnone ↦ absurd ?_ (hnone p)⟩
        · by_cases hqp : q = p
          · subst hqp
            rw [moveTo_phase_self] at hq
            cases hloaded hq
          · rw [moveTo_phase_of_ne _ _ _ hqp] at hq
            rcases hsplit q hq.isLoaded with heq | heq
            · exact absurd (CallEvent.step.inj heq).symm hqp
            · cases heq
        · rw [moveTo_phase_self]
          exact hwriting.mpr (Or.inl rfl)
      · cases ha
  | load =>
      obtain ⟨a', ha', rfl⟩ | ⟨⟨_, ha⟩, -⟩ := hph
      · cases ha'
        refine h.move _ (fun value hl ↦ ?_) fun _ ↦ hwriting.mpr (Or.inr ⟨_, rfl⟩)
        exact (Access.out.inj (hloaded hl)).symm
      · cases ha
  | out value =>
      obtain ⟨a', ha', -⟩ | ⟨-, rfl⟩ := hph
      · cases ha'
      · have hvalue : value = s.pic.cached21 := by
          refine h.loaded p value ?_
          rw [hp]
          exact hmk.imp (fun h ↦ congrFun h _) fun h ↦ congrFun h _
        have hpic : Access.apply s.pic (.out value) = { s.pic with master := ⟨value, 0⟩ } := by
          simp [Access.apply, Pic.outb, master8259PortConfig, master8259Port, slave8259Port,
            Chip.config, h.ready]
        rw [hpic]
        refine ⟨rfl, fun q v hq ↦ ?_, fun _ ↦ hvalue⟩
        by_cases hqp : q = p
        · subst hqp
          rw [moveTo_phase_self] at hq
          rcases hdone with rfl | rfl <;> rcases hq with hq | hq <;> cases hq
        · rw [moveTo_phase_of_ne _ _ _ hqp] at hq
          exact h.loaded q v hq

theorem Settled.next (h : s.Settled) (hsplit : s.Unsplit e) (hn : s.next e = some s') :
    s'.Settled := by
  have hquiet : ∀ {ph : Phase}, (∀ a, ph ≠ .disable a) → (∀ a, ph ≠ .enable a) →
      ¬ ph.Writing := by
    rintro ph hd he (heq | heq | ⟨value, heq | heq⟩)
    · exact hd _ heq
    · exact he _ heq
    · exact hd _ heq
    · exact he _ heq
  cases e with
  | call q =>
      rw [Readers.next] at hn
      split at hn
      · rename_i hq
        cases hn
        refine h.move _ (fun value hl ↦ ?_) fun hw ↦ absurd hw ?_
        · rcases hl with hl | hl <;> cases hl
        · rw [hq]
          exact hquiet (fun _ ↦ Phase.noConfusion) fun _ ↦ Phase.noConfusion
      · cases hn
  | step q =>
      rcases stepOf_cases hn with ⟨a, ph, hp, rfl, hph⟩ | ⟨hp, rfl⟩ | ⟨hp, -, rfl⟩ | ⟨-, -, rfl⟩ |
        ⟨a, ph, hp, rfl, hph⟩
      · exact h.access hsplit (Or.inl rfl) hp (Or.inl rfl) hph
      · refine h.move _ (fun value hl ↦ ?_) fun hw ↦ absurd hw ?_
        · rcases hl with hl | hl <;> cases hl
        · rw [hp]
          exact hquiet (fun _ ↦ Phase.noConfusion) fun _ ↦ Phase.noConfusion
      · refine h.move _ (fun value hl ↦ ?_) fun hw ↦ absurd hw ?_
        · rcases hl with hl | hl <;> cases hl
        · rw [hp]
          exact hquiet (fun _ ↦ Phase.noConfusion) fun _ ↦ Phase.noConfusion
      · exact h
      · exact h.access hsplit (Or.inr rfl) hp (Or.inr rfl) hph
  | rtcInterrupt =>
      cases hn
      exact ⟨h.ready, h.loaded, h.agrees⟩

/-- **The keyboard after `rtc_read`.**  However the calls of any processes are interleaved,
whenever none is in the call the record has the keyboard enabled.  If no process was held up
between the load of the mask byte and the write, the chip has the record's byte then, and
the keyboard is unmasked. -/
theorem rtc_read_keyboard (P : Type) [DecidableEq P] (pic : Pic)
    (hpic : pic.cachedIrqMask = 0xffff) (flag : Bool) (es : List (CallEvent P)) (s : Readers P)
    (hexec : exec next (start P pic flag) es = some s)
    (hidle : ∀ p, s.phase p = .idle) :
    s.pic.cachedIrqMask.getLsbD 1 = false ∧
      (AllSteps next Unsplit (start P pic flag) es →
        s.pic.master.imr = s.pic.cached21 ∧ ¬ s.pic.Masked 1) := by
  have hf : Pic.Follows entryCalls (picRun pic entryCalls) := .run hpic entryCalls
  have hbit₀ : (picRun pic entryCalls).cachedIrqMask.getLsbD 1 = false :=
    hf.record 1 (by decide)
  have hheld₀ : (start P pic flag).Held := by
    refine ⟨fun hbit ↦ ?_, fun q record hq ↦ by cases hq⟩
    have hbit : (picRun pic entryCalls).cachedIrqMask.getLsbD 1 = true := hbit
    rw [hbit₀] at hbit
    cases hbit
  have hall : ∀ {s : Readers P} {es : List (CallEvent P)}, AllSteps next (fun _ _ ↦ True) s es := by
    intro s es
    induction es generalizing s with
    | nil => trivial
    | cons e es ih => exact ⟨trivial, fun _ _ ↦ ih⟩
  have hheld : s.Held := hall.along Held (fun _ _ _ h _ hn ↦ h.next hn) hheld₀ es s
    (List.prefix_refl _) hexec
  have hbit : s.pic.cachedIrqMask.getLsbD 1 = false := by
    refine Bool.eq_false_iff.mpr fun hbit ↦ ?_
    obtain ⟨q, hq⟩ := hheld.holder hbit
    rw [hidle q] at hq
    rcases hq with hh | ⟨_, hh⟩ | hh | hh | hh | ⟨_, hh⟩ <;> cases hh
  refine ⟨hbit, fun hsplit ↦ ?_⟩
  have hsettled₀ : (start P pic flag).Settled := by
    refine ⟨hf.masterReady, fun q value hq ↦ ?_, fun _ ↦ ?_⟩
    · rcases hq with hq | hq <;> cases hq
    · exact hf.master ⟨.enable 1, by decide, by decide⟩
  have hsettled : s.Settled := hsplit.along Settled (fun _ _ _ h hu hn ↦ h.next hu hn) hsettled₀ es
    s (List.prefix_refl _) hexec
  have himr : s.pic.master.imr = s.pic.cached21 := by
    refine hsettled.agrees fun q hq ↦ ?_
    rw [hidle q] at hq
    rcases hq with hq | hq | ⟨_, hq | hq⟩ <;> cases hq
  refine ⟨himr, ?_⟩
  rw [Pic.Masked, if_pos (by decide), himr, Pic.cached21_getLsbD (by decide), hbit]
  decide

/-- Two processes are in the call at once, and wake up by one interrupt. -/
def overlappingReads : List (CallEvent (Fin 6)) :=
  [.call 1, .step 1, .call 2, .step 1, .step 2, .step 2, .step 2, .step 2, .step 1, .step 1,
    .step 2, .step 1, .rtcInterrupt, .step 1, .step 2, .step 1, .step 1, .step 1, .step 1,
    .step 2, .step 2, .step 2, .step 2]

theorem rtc_read_keyboard_two :
    ∃ s, exec next (start _ ⟨⟨0, 0⟩, ⟨0, 0⟩, 0xffff⟩ false) overlappingReads = some s ∧
      ¬ s.pic.Masked 1 := by
  obtain ⟨s, hs⟩ : ∃ s, exec next (start _ ⟨⟨0, 0⟩, ⟨0, 0⟩, 0xffff⟩ false) overlappingReads =
      some s := ⟨_, rfl⟩
  have hidle : ∀ p, s.phase p = .idle := by
    cases hs
    decide
  have hkeyboard := rtc_read_keyboard (Fin 6) ⟨⟨0, 0⟩, ⟨0, 0⟩, 0xffff⟩ rfl false
    overlappingReads s hs hidle
  exact ⟨s, hs, (hkeyboard.2 (AllSteps.of_decide (by decide))).2⟩

/-- Process 1 is held up in front of its last write.  It has loaded the byte while process 2
had masked the keyboard, and writes it when process 2 has unmasked it again. -/
theorem keyboard_left_masked :
    ∃ es s, exec next (start (Fin 6) ⟨⟨0, 0⟩, ⟨0, 0⟩, 0xffff⟩ false) es = some s ∧
      (∀ p, s.phase p = .idle) ∧ s.pic.Masked 1 := by
  refine ⟨[.call 1, .step 1, .step 1, .step 1, .step 1, .step 1, .rtcInterrupt, .step 1, .step 1,
    .step 1, .call 2, .step 2, .step 2, .step 1, .step 2, .step 2, .step 2, .rtcInterrupt, .step 2,
    .step 2, .step 2, .step 2, .step 2, .step 1], _, rfl, ?_, ?_⟩
  · decide
  · decide

end Readers

end Illinix
