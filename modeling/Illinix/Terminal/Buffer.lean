import Illinix.Base.Run
import Illinix.Terminal.Driver

/-!
# Runs of the terminal driver

Keys are pressed, terminals are switched, and calls of `terminal_read` complete, in any
order.  A call of `terminal_read` fixes its terminal when it begins and completes when
`enter_status` is set, so it may be for a terminal that is not the active one by then.

The driver stays inside its buffers exactly as long as no character is typed on a full buffer
and no call with a negative size finds characters (`indices_ok_iff`): `terminal_write` compares
the index of the last character with the size of the buffer, one too far.  Inside its buffers
it is a queue for each terminal, and no character is lost or repeated (`taken_append_pending`).
-/

namespace Illinix

open Base

/-- What can happen to the terminals. -/
inductive TtyEvent
  | key (c : UInt8)
  | switchTo (tty : Nat)
  | read (target : Nat) (nbytes : Int)
deriving DecidableEq, Repr

namespace Tty

/-- One event.  A read waits for `enter_status`, and there are `MAX_TTY` terminals. -/
def step (s : Tty) : TtyEvent → Option Tty
  | .key c => some (s.key c)
  | .switchTo tty => if tty < maxTty then some { s with activeTty := tty } else none
  | .read target nbytes =>
      if s.enterStatus = true ∧ target < maxTty then some (terminalRead target nbytes s).2 else none

theorem step_switchTo {s s' : Tty} {tty : Nat} :
    s.step (.switchTo tty) = some s' ↔ tty < maxTty ∧ s' = { s with activeTty := tty } := by
  rw [step]
  split
  · rename_i h
    rw [Option.some.injEq, eq_comm, and_iff_right h]
  · rename_i h
    exact ⟨fun hc ↦ (by cases hc), fun hc ↦ absurd hc.1 h⟩

theorem step_read {s s' : Tty} {target : Nat} {nbytes : Int} :
    s.step (.read target nbytes) = some s' ↔
      s.enterStatus = true ∧ target < maxTty ∧ s' = (terminalRead target nbytes s).2 := by
  rw [step]
  split
  · rename_i h
    rw [Option.some.injEq, eq_comm, ← and_assoc, and_iff_right h]
  · rename_i h
    exact ⟨fun hc ↦ (by cases hc), fun hc ↦ absurd ⟨hc.1, hc.2.1⟩ h⟩

/-! ## The active terminal -/

theorem step_activeTty_lt {s s' : Tty} {e : TtyEvent} (ha : s.activeTty < maxTty)
    (hs : s.step e = some s') : s'.activeTty < maxTty := by
  cases e with
  | key c =>
      rw [← Option.some.inj hs, key_activeTty]
      exact ha
  | switchTo tty =>
      obtain ⟨htty, rfl⟩ := step_switchTo.mp hs
      exact htty
  | read target nbytes =>
      obtain ⟨-, -, rfl⟩ := step_read.mp hs
      rw [terminalRead_activeTty]
      exact ha

/-! ## Indices -/

/-- The indices of the last characters, and every index at which a buffer was accessed. -/
structure IndicesOk (s : Tty) : Prop where
  tail : ∀ t, t < maxTty → -1 ≤ s.tail t ∧ s.tail t ≤ maxBufferSize - 1
  used : ∀ i ∈ s.used, 0 ≤ i ∧ i ≤ maxBufferSize - 1

theorem indicesOk_iff {s : Tty} :
    s.IndicesOk ↔ s.Bounded ∧ ∀ i ∈ s.used, 0 ≤ i ∧ i ≤ maxBufferSize - 1 := by
  constructor
  · rintro ⟨htail, hused⟩
    exact ⟨fun t ht ↦ ⟨(htail t ht).1, Int.lt_of_le_sub_one (htail t ht).2⟩, hused⟩
  · rintro ⟨hbounded, hused⟩
    exact ⟨fun t ht ↦ ⟨(hbounded t ht).1, Int.le_sub_one_of_lt (hbounded t ht).2⟩, hused⟩

theorem IndicesOk.bounded {s : Tty} (h : s.IndicesOk) : s.Bounded := (indicesOk_iff.mp h).1

/-- No character is typed on a full buffer, and a read that completes has a size that is not
negative, or finds nothing. -/
def Fits (s : Tty) : TtyEvent → Prop
  | .key c => IsChar c → s.tail s.activeTty + 1 < maxBufferSize
  | .switchTo _ => True
  | .read target nbytes =>
      s.enterStatus = true → target < maxTty → 0 ≤ nbytes ∨ s.tail target = -1

instance (s : Tty) (e : TtyEvent) : Decidable (s.Fits e) :=
  match e with
  | .key c => inferInstanceAs (Decidable (IsChar c → _))
  | .switchTo _ => inferInstanceAs (Decidable True)
  | .read target nbytes =>
      inferInstanceAs (Decidable
        (s.enterStatus = true → target < maxTty → 0 ≤ nbytes ∨ s.tail target = -1))

variable {s : Tty}

/-- A key keeps inside the buffer, unless it is a character and the buffer is full. -/
theorem IndicesOk.key_iff (h : s.IndicesOk) (ha : s.activeTty < maxTty) {c : UInt8} :
    (s.key c).IndicesOk ↔ (IsChar c → s.tail s.activeTty + 1 < maxBufferSize) := by
  constructor
  · intro h' hc
    rw [key_char hc (h.bounded _ ha).2] at h'
    exact Int.lt_of_le_sub_one (h'.used _ List.mem_cons_self).2
  · intro hroom
    refine indicesOk_iff.mpr ⟨h.bounded.key ha hroom, fun i hi ↦ ?_⟩
    rcases mem_key_used (h.bounded _ ha).2 hi with ⟨hc, rfl⟩ | hi
    · have hlow := (h.bounded _ ha).1
      have hhigh := hroom hc
      omega
    · exact h.used i hi

/-- A read keeps inside the buffer, unless it has a negative size and finds characters. -/
theorem IndicesOk.read_iff (h : s.IndicesOk) {t : Nat} (ht : t < maxTty) {n : Int} :
    (terminalRead t n s).2.IndicesOk ↔ 0 ≤ n ∨ s.tail t = -1 := by
  obtain ⟨hlow, hhigh⟩ := h.tail t ht
  constructor
  · intro h'
    by_cases hempty : s.tail t = -1
    · exact Or.inr hempty
    · -- the loop that moves the rest down starts at the negative index
      refine Or.inl (Int.not_lt.mp fun hneg ↦ ?_)
      have hcopy : s.actualCopy t n = n := if_pos (by omega)
      have hmem : n ∈ (terminalRead t n s).2.used := by
        rw [mem_terminalRead_used hempty, hcopy]
        omega
      have hindex := (h'.used n hmem).1
      omega
  · intro hn
    refine indicesOk_iff.mpr ⟨h.bounded.read ht hn, fun j hj ↦ ?_⟩
    by_cases hempty : s.tail t = -1
    · rw [terminalRead_empty hempty] at hj
      exact h.used j hj
    · have hcopy := actualCopy_eq hlow (hn.resolve_right hempty)
      rw [length_pending] at hcopy
      rcases (mem_terminalRead_used hempty).mp hj with hj | hj
      · exact h.used j hj
      · omega

/-- **One step.**  It stays inside the buffers exactly if it fits. -/
theorem IndicesOk.step_iff (h : s.IndicesOk) (ha : s.activeTty < maxTty) (e : TtyEvent) :
    (∀ s', s.step e = some s' → s'.IndicesOk) ↔ s.Fits e := by
  cases e with
  | key c =>
      refine Iff.trans ⟨fun h' ↦ h' _ rfl, ?_⟩ (h.key_iff ha)
      rintro h' s' hs'
      exact Option.some.inj hs' ▸ h'
  | switchTo tty =>
      refine ⟨fun _ ↦ trivial, fun _ s' hs' ↦ ?_⟩
      obtain ⟨-, rfl⟩ := step_switchTo.mp hs'
      exact ⟨h.tail, h.used⟩
  | read target nbytes =>
      constructor
      · intro h' henter ht
        exact (h.read_iff ht).mp (h' _ (step_read.mpr ⟨henter, ht, rfl⟩))
      · intro hfits s' hs'
        obtain ⟨henter, ht, rfl⟩ := step_read.mp hs'
        exact (h.read_iff ht).mpr (hfits henter ht)

theorem indicesOk_open (hused : s.used = []) : s.terminalOpen.IndicesOk where
  tail t ht := by
    rw [tail_open s ht]
    decide
  used i hi := absurd hi (by rw [show s.terminalOpen.used = [] from hused]; exact List.not_mem_nil)

/-- **The indices of a run.**  After `terminal_open` the driver stays inside its buffers,
through any keys, switches and reads, exactly if each of them fits. -/
theorem indices_ok_iff (s : Tty) (ha : s.activeTty < maxTty) (hused : s.used = [])
    (es : List TtyEvent) :
    Along step IndicesOk s.terminalOpen es ↔ AllSteps step Fits s.terminalOpen es := by
  have hopen := indicesOk_open hused
  rw [along_iff, and_iff_right hopen]
  refine AllSteps.congr (fun s ↦ s.IndicesOk ∧ s.activeTty < maxTty) ?_ ?_ ⟨hopen, ha⟩
  · rintro s e s' ⟨-, ha⟩ hpost hs'
    exact ⟨hpost s' hs', step_activeTty_lt ha hs'⟩
  · rintro s e ⟨h, ha⟩
    exact h.step_iff ha e

/-- A run that fits: two characters, one erased, Enter, a switch, and a read of the rest. -/
theorem indices_ok_iff_fitting :
    Along step IndicesOk boot.terminalOpen
      [.key 0x61, .key 0x62, .key 8, .key 0x0a, .switchTo 1, .read 0 128] := by
  refine (indices_ok_iff boot (by decide) rfl _).mpr (AllSteps.of_decide ?_)
  decide

/-- A character, Enter, and a read of size `-1`: the buffer is accessed at index `-1`. -/
theorem negative_index :
    ¬ Along step IndicesOk boot.terminalOpen [.key 0x61, .key 0x0a, .read 0 (-1)] := by
  intro h
  obtain ⟨s', hexec, hmem⟩ : ∃ s', exec step boot.terminalOpen
      [.key 0x61, .key 0x0a, .read 0 (-1)] = some s' ∧ -1 ∈ s'.used := ⟨_, rfl, by decide⟩
  have hindex := (h _ s' (List.prefix_refl _) hexec).used (-1) hmem
  exact absurd hindex.1 (by decide)

/-! ## A queue for each terminal -/

/-- What one event does to the characters that are pending on terminal `t`. -/
def queue (s : Tty) (t : Nat) : TtyEvent → List UInt8
  | .key c => if t = s.activeTty then edit c (s.pending t) else s.pending t
  | .switchTo _ => s.pending t
  | .read target nbytes => if t = target then (s.pending t).drop nbytes.toNat else s.pending t

/-- No character is typed on a full buffer, and no size is negative. -/
def Room (s : Tty) : TtyEvent → Prop
  | .key c => IsChar c → (s.pending s.activeTty).length < maxBufferSize
  | .switchTo _ => True
  | .read _ nbytes => 0 ≤ nbytes

instance (s : Tty) (e : TtyEvent) : Decidable (s.Room e) :=
  match e with
  | .key c => inferInstanceAs (Decidable (IsChar c → _))
  | .switchTo _ => inferInstanceAs (Decidable True)
  | .read _ nbytes => inferInstanceAs (Decidable (0 ≤ nbytes))

theorem length_lt_iff {t : Nat} (h : -1 ≤ s.tail t) :
    (s.pending t).length < maxBufferSize ↔ s.tail t + 1 < maxBufferSize := by
  rw [length_pending, Int.toNat_of_nonneg (by omega)]

/-- The driver is inside its buffers. -/
structure Inside (s : Tty) : Prop where
  active_lt : s.activeTty < maxTty
  bounded : s.Bounded

theorem inside_open (ha : s.activeTty < maxTty) : s.terminalOpen.Inside := ⟨ha, bounded_open s⟩

namespace Inside

variable {s' : Tty} {e : TtyEvent}

theorem step (h : s.Inside) (hroom : s.Room e) (hs : s.step e = some s') : s'.Inside := by
  refine ⟨step_activeTty_lt h.active_lt hs, ?_⟩
  cases e with
  | key c =>
      rw [← Option.some.inj hs]
      exact h.bounded.key h.active_lt fun hc ↦ (length_lt_iff (h.bounded _ h.active_lt).1).mp (hroom hc)
  | switchTo tty =>
      obtain ⟨-, rfl⟩ := step_switchTo.mp hs
      exact h.bounded
  | read target nbytes =>
      obtain ⟨-, ht, rfl⟩ := step_read.mp hs
      exact h.bounded.read ht (Or.inl hroom)

/-- **One step on the queues.** -/
theorem pending_step (h : s.Inside) (hroom : s.Room e) (hs : s.step e = some s') {t : Nat}
    (ht : t < maxTty) : s'.pending t = s.queue t e := by
  cases e with
  | key c =>
      rw [← Option.some.inj hs]
      refine h.bounded.pending_key h.active_lt (fun hc ↦ ?_) ht
      exact (length_lt_iff (h.bounded _ h.active_lt).1).mp (hroom hc)
  | switchTo tty =>
      obtain ⟨-, rfl⟩ := step_switchTo.mp hs
      rfl
  | read target nbytes =>
      obtain ⟨-, htarget, rfl⟩ := step_read.mp hs
      simp only [queue]
      split
      · rename_i heq
        rw [heq]
        exact h.bounded.pending_read_self htarget hroom
      · rename_i hne
        exact h.bounded.pending_read_of_ne htarget hroom ht hne

end Inside

end Tty

/-! ## What was typed, and what was read -/

/-- The characters typed on each terminal, less those that were erased, and the bytes that
the reads of each terminal have returned. -/
structure Typescript where
  typed : Nat → List UInt8
  taken : Nat → List UInt8

namespace Typescript

/-- Nothing was typed. -/
def empty : Typescript := ⟨fun _ ↦ [], fun _ ↦ []⟩

/-- A character is written down, and a backspace strikes out the last one that was not taken
yet, if there is one. -/
def strike (c : UInt8) (typed taken : List UInt8) : List UInt8 :=
  if c = 8 then if taken.length < typed.length then typed.dropLast else typed
  else if c = 0x0a then typed
  else typed ++ [c]

/-- One event, which the driver takes in the state `s`. -/
def note (r : Typescript) (s : Tty) : TtyEvent → Typescript
  | .key c =>
      let t := s.activeTty
      { r with typed := Function.update r.typed t (strike c (r.typed t) (r.taken t)) }
  | .switchTo _ => r
  | .read target nbytes =>
      { r with
        taken := Function.update r.taken target
          (r.taken target ++ (Tty.terminalRead target nbytes s).1.returned) }

/-- The driver, with the typescript beside it. -/
def step (p : Tty × Typescript) (e : TtyEvent) : Option (Tty × Typescript) :=
  (p.1.step e).map fun s' ↦ (s', p.2.note p.1 e)

/-- What was read and what is pending is what was typed. -/
def Conserved (p : Tty × Typescript) : Prop :=
  ∀ t, t < maxTty → p.2.taken t ++ p.1.pending t = p.2.typed t

/-- To edit what is pending is to edit what was typed. -/
theorem append_edit (c : UInt8) (taken pending : List UInt8) :
    taken ++ Tty.edit c pending = strike c (taken ++ pending) taken := by
  rw [Tty.edit, strike]
  split
  · rcases List.eq_nil_or_concat' pending with rfl | ⟨l, x, rfl⟩
    · rw [List.dropLast_nil, List.append_nil, if_neg (Nat.lt_irrefl _)]
    · have hlonger : taken.length < (taken ++ (l ++ [x])).length := by
        rw [List.length_append, List.length_append, List.length_singleton]
        omega
      rw [List.dropLast_concat, if_pos hlonger, ← List.append_assoc, List.dropLast_concat]
  · split
    · rfl
    · rw [List.append_assoc]

variable {p p' : Tty × Typescript} {e : TtyEvent}

/-- **One step loses and repeats no character.** -/
theorem Conserved.step (h : Conserved p) (hin : p.1.Inside) (hroom : p.1.Room e)
    (hs : Typescript.step p e = some p') : Conserved p' := by
  obtain ⟨s', hs', rfl⟩ := Option.map_eq_some_iff.mp hs
  intro t ht
  have hpending := hin.pending_step hroom hs' ht
  have hold := h t ht
  simp only [hpending]
  cases e with
  | key c =>
      simp only [Tty.queue, note]
      split
      · rename_i heq
        subst heq
        rw [Function.update_self, ← hold]
        exact append_edit c _ _
      · rename_i hne
        rw [Function.update_of_ne hne]
        exact hold
  | switchTo tty => exact hold
  | read target nbytes =>
      simp only [Tty.queue, note]
      split
      · rename_i heq
        subst heq
        rw [Function.update_self, hin.bounded.returned_read ht hroom, List.append_assoc,
          List.take_append_drop]
        exact hold
      · rename_i hne
        rw [Function.update_of_ne hne]
        exact hold

/-- **No character is lost, repeated or reordered.**  Through any keys, switches and reads of
any sizes, what the reads of a terminal have returned and what is in its buffer is what was
typed there. -/
theorem taken_append_pending (s : Tty) (ha : s.activeTty < maxTty) (es : List TtyEvent)
    (hes : AllSteps step (fun p e ↦ p.1.Room e) (s.terminalOpen, empty) es) :
    Along step Conserved (s.terminalOpen, empty) es := by
  have hstart : Conserved (s.terminalOpen, empty) ∧ s.terminalOpen.Inside :=
    ⟨fun t ht ↦ Tty.pending_eq_nil (s.tail_open ht), Tty.inside_open ha⟩
  have halong := AllSteps.along (fun p ↦ Conserved p ∧ p.1.Inside) ?_ hstart hes
  · exact fun es' p' hpre hexec ↦ (halong es' p' hpre hexec).1
  · rintro p e p' ⟨hcons, hin⟩ hroom hs
    obtain ⟨s', hs', rfl⟩ := Option.map_eq_some_iff.mp hs
    exact ⟨hcons.step hin hroom hs, hin.step hroom hs'⟩

/-- A partial read, a backspace on the rest, and a read of one terminal after a switch to
another. -/
theorem taken_append_pending_partial :
    Along step Conserved (Tty.boot.terminalOpen, empty)
      [.key 0x61, .key 0x62, .key 0x63, .key 0x0a, .read 0 1, .key 8, .switchTo 1, .key 0x64,
        .key 0x0a, .read 0 5] := by
  refine taken_append_pending Tty.boot (by decide) _ (AllSteps.of_decide ?_)
  decide

end Typescript

end Illinix
