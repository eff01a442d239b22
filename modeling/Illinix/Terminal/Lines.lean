import Illinix.Terminal.Buffer

/-!
# Lines

A program that reads a terminal expects a line for each read: the characters between two
Enters, as they were edited.  `LineLog` writes down what was typed as lines, independently of
the driver, beside what the reads have returned.

The driver has no ends of lines in its buffers and one `enter_status` for all terminals, so a
read returns whatever is pending, and an Enter on one terminal lets a read of another through.
`reads_prefix_lines` says when this does not show: every read is let through by an Enter on its
own terminal, before more was typed there (or after that was erased), no backspace goes back
into a line that was ended, and the buffers are not overrun.
-/

namespace Illinix

open Base

/-- The lines ended on each terminal, the line that is being typed, what the reads of each
terminal have returned, and the terminals on which Enter was pressed since a read last
completed. -/
structure LineLog where
  lines : Nat → List (List UInt8)
  line : Nat → List UInt8
  reads : Nat → List (List UInt8)
  pressed : List Nat

namespace LineLog

def empty : LineLog := ⟨fun _ ↦ [], fun _ ↦ [], fun _ ↦ [], []⟩

/-- One event, which the driver takes in the state `s`. -/
def note (l : LineLog) (s : Tty) : TtyEvent → LineLog
  | .key c =>
      let t := s.activeTty
      if c = 0x0a then
        { l with
          lines := Function.update l.lines t (l.lines t ++ [l.line t])
          line := Function.update l.line t []
          pressed := t :: l.pressed }
      else { l with line := Function.update l.line t (Tty.edit c (l.line t)) }
  | .switchTo _ => l
  | .read target nbytes =>
      { l with
        reads := Function.update l.reads target
          (l.reads target ++ [(Tty.terminalRead target nbytes s).1.returned])
        pressed := [] }

/-- The driver, with the log beside it. -/
def step (p : Tty × LineLog) (e : TtyEvent) : Option (Tty × LineLog) :=
  (p.1.step e).map fun s' ↦ (s', p.2.note p.1 e)

/-- The lines of terminal `t` for which no read has completed. -/
def unread (l : LineLog) (t : Nat) : List (List UInt8) := (l.lines t).drop (l.reads t).length

/-- The reads of each terminal have returned its lines, in order, and no more of them than
were ended. -/
def Disciplined (p : Tty × LineLog) : Prop := ∀ t, t < maxTty → p.2.reads t <+: p.2.lines t

/-- The buffer of a read is larger than any line. -/
def Larger (p : Tty × LineLog) : TtyEvent → Prop
  | .read target nbytes => ∀ l ∈ p.2.lines target, l.length < nbytes
  | _ => True

/-- Lines are kept apart: characters fit, a backspace erases nothing of a line that was ended,
and a read is let through by an Enter on its terminal, while nothing follows the line there. -/
def Apart (p : Tty × LineLog) : TtyEvent → Prop
  | .key c =>
      p.1.Room (.key c) ∧ (c = 8 → p.2.line p.1.activeTty ≠ [] ∨ p.1.pending p.1.activeTty = [])
  | .switchTo _ => True
  | .read target _ =>
      target ∈ p.2.pressed ∧ (p.2.unread target).tail.flatten ++ p.2.line target = []

instance (p : Tty × LineLog) (e : TtyEvent) : Decidable (Larger p e) :=
  match e with
  | .key _ => inferInstanceAs (Decidable True)
  | .switchTo _ => inferInstanceAs (Decidable True)
  | .read target nbytes => inferInstanceAs (Decidable (∀ l ∈ p.2.lines target, l.length < nbytes))

instance (p : Tty × LineLog) (e : TtyEvent) : Decidable (Apart p e) :=
  match e with
  | .key c => inferInstanceAs (Decidable (p.1.Room (.key c) ∧ (c = 8 → _)))
  | .switchTo _ => inferInstanceAs (Decidable True)
  | .read target _ => inferInstanceAs (Decidable (target ∈ p.2.pressed ∧ _ = _))

/-! ## The buffer holds the unread lines -/

/-- What is pending is the lines that were not read, and the one that is being typed. -/
structure Holds (p : Tty × LineLog) : Prop where
  inside : p.1.Inside
  disciplined : Disciplined p
  pending : ∀ t, t < maxTty → p.1.pending t = (p.2.unread t).flatten ++ p.2.line t
  pressed : ∀ t, t ∈ p.2.pressed → p.2.unread t ≠ []

theorem holds_open {s : Tty} (ha : s.activeTty < maxTty) : Holds (s.terminalOpen, empty) where
  inside := Tty.inside_open ha
  disciplined _ _ := List.prefix_refl _
  pending _ ht := Tty.pending_eq_nil (s.tail_open ht)
  pressed _ h := absurd h List.not_mem_nil

variable {p p' : Tty × LineLog}

/-- One line is ended. -/
theorem unread_enter (h : Disciplined p) (ht : p.1.activeTty < maxTty) (t : Nat) :
    (p.2.note p.1 (.key 0x0a)).unread t =
      if t = p.1.activeTty then p.2.unread t ++ [p.2.line t] else p.2.unread t := by
  simp only [unread, note, if_true]
  split
  · rename_i heq
    subst heq
    rw [Function.update_self, List.drop_append_of_le_length (h _ ht).length_le]
  · rename_i hne
    rw [Function.update_of_ne hne]

/-- A character or a backspace. -/
theorem Holds.edit (h : Holds p) {c : UInt8} (henter : c ≠ 0x0a) (hapart : Apart p (.key c)) :
    Holds (p.1.key c, p.2.note p.1 (.key c)) := by
  obtain ⟨hroom, hbksp⟩ := hapart
  have hnote : p.2.note p.1 (.key c) = { p.2 with
      line := Function.update p.2.line p.1.activeTty (Tty.edit c (p.2.line p.1.activeTty)) } :=
    if_neg henter
  rw [hnote]
  refine ⟨h.inside.step hroom rfl, h.disciplined, fun t ht ↦ ?_, h.pressed⟩
  have hstep : p.1.step (.key c) = some (p.1.key c) := rfl
  have hpending := h.inside.pending_step hroom hstep ht
  simp only [hpending, Tty.queue]
  split
  · rename_i heq
    subst heq
    rw [Function.update_self, h.pending _ ht, Tty.edit_append _ _ fun h8 ↦ ?_]
    · rfl
    · refine (hbksp h8).imp_right fun hnil ↦ ?_
      rw [h.pending _ ht] at hnil
      exact (List.append_eq_nil_iff.mp hnil).1
  · rename_i hne
    rw [Function.update_of_ne hne]
    exact h.pending t ht

/-- Enter. -/
theorem Holds.enter (h : Holds p) (hapart : Apart p (.key 0x0a)) :
    Holds (p.1.key 0x0a, p.2.note p.1 (.key 0x0a)) := by
  have hunread := unread_enter h.disciplined h.inside.active_lt
  refine ⟨h.inside.step hapart.1 rfl, fun t ht ↦ ?_, fun t ht ↦ ?_, fun t ht ↦ ?_⟩
  · show p.2.reads t <+: Function.update p.2.lines p.1.activeTty _ t
    rcases eq_or_ne t p.1.activeTty with rfl | hne
    · rw [Function.update_self]
      exact (h.disciplined _ ht).trans (List.prefix_append _ _)
    · rw [Function.update_of_ne hne]
      exact h.disciplined t ht
  · have hline : (p.2.note p.1 (.key 0x0a)).line t =
        Function.update p.2.line p.1.activeTty [] t := rfl
    have hpending : (p.1.key 0x0a).pending t = p.1.pending t := rfl
    rw [hunread, hline, hpending, h.pending t ht]
    split
    · rename_i heq
      subst heq
      rw [Function.update_self, List.flatten_append, List.flatten_singleton, List.append_nil]
    · rename_i hne
      rw [Function.update_of_ne hne]
  · rw [hunread]
    split
    · exact List.append_ne_nil_of_right_ne_nil _ (List.cons_ne_nil _ _)
    · rename_i hne
      exact h.pressed t ((List.mem_cons.mp ht).resolve_left hne)

/-- The line that a read finds. -/
theorem Holds.exists_line (h : Holds p) {t : Nat} {n : Int} (ht : t < maxTty)
    (hapart : Apart p (.read t n)) :
    ∃ l rest, p.2.lines t = p.2.reads t ++ l :: rest ∧ rest.flatten = [] ∧ p.2.line t = [] ∧
      p.1.pending t = l := by
  obtain ⟨l, rest, hunread⟩ := List.exists_cons_of_ne_nil (h.pressed t hapart.1)
  obtain ⟨hrest, hline⟩ := List.append_eq_nil_iff.mp hapart.2
  rw [hunread, List.tail_cons] at hrest
  refine ⟨l, rest, ?_, hrest, hline, ?_⟩
  · rw [← hunread]
    exact (List.prefix_iff_eq_append.mp (h.disciplined t ht)).symm
  · rw [h.pending t ht, hunread, List.flatten_cons, hrest, hline, List.append_nil, List.append_nil]

/-- A read. -/
theorem Holds.read (h : Holds p) {t : Nat} {n : Int} (ht : t < maxTty)
    (henter : p.1.enterStatus = true) (hlarger : Larger p (.read t n))
    (hapart : Apart p (.read t n)) :
    Holds ((Tty.terminalRead t n p.1).2, p.2.note p.1 (.read t n)) := by
  obtain ⟨l, rest, hlines, hrest, hline, hpending⟩ := h.exists_line ht hapart
  have hlen : l.length < n := hlarger l (hlines ▸ List.mem_append_right _ List.mem_cons_self)
  have hn : 0 ≤ n := by omega
  have hstep : p.1.step (.read t n) = some (Tty.terminalRead t n p.1).2 :=
    Tty.step_read.mpr ⟨henter, ht, rfl⟩
  have hreturned : (Tty.terminalRead t n p.1).1.returned = l := by
    rw [h.inside.bounded.returned_read ht hn, hpending]
    exact List.take_of_length_le (by omega)
  have hlines' : p.2.lines t = (p.2.reads t ++ [l]) ++ rest := by
    rw [hlines, List.append_assoc, List.singleton_append]
  refine ⟨h.inside.step (e := .read t n) hn hstep, fun t' ht' ↦ ?_, fun t' ht' ↦ ?_,
    fun t' hmem ↦ absurd hmem List.not_mem_nil⟩
  · show Function.update p.2.reads t _ t' <+: p.2.lines t'
    rcases eq_or_ne t' t with rfl | hne
    · rw [Function.update_self, hreturned, hlines']
      exact List.prefix_append _ _
    · rw [Function.update_of_ne hne]
      exact h.disciplined t' ht'
  · have hqueue := h.inside.pending_step (e := .read t n) hn hstep ht'
    simp only [hqueue, Tty.queue, unread, note]
    rcases eq_or_ne t' t with rfl | hne
    · rw [if_pos rfl, Function.update_self, hpending, hreturned, hlines',
        List.drop_left' rfl, hrest, hline, List.append_nil]
      exact List.drop_of_length_le (by omega)
    · rw [if_neg hne, Function.update_of_ne hne]
      exact h.pending t' ht'

/-- **One step keeps the lines.** -/
theorem Holds.step (h : Holds p) {e : TtyEvent} (hlarger : Larger p e) (hapart : Apart p e)
    (hs : LineLog.step p e = some p') : Holds p' := by
  obtain ⟨s', hs', rfl⟩ := Option.map_eq_some_iff.mp hs
  cases e with
  | key c =>
      rw [← Option.some.inj hs']
      by_cases henter : c = 0x0a
      · subst henter
        exact h.enter hapart
      · exact h.edit henter hapart
  | switchTo tty =>
      obtain ⟨htty, rfl⟩ := Tty.step_switchTo.mp hs'
      exact ⟨⟨htty, h.inside.bounded⟩, h.disciplined, h.pending, h.pressed⟩
  | read target nbytes =>
      obtain ⟨henter, ht, rfl⟩ := Tty.step_read.mp hs'
      exact h.read ht henter hlarger hapart

/-- **A line for each read.**  Through any keys, switches and reads with buffers larger than
any line, that keep the lines apart, the reads completed on a terminal return its lines. -/
theorem reads_prefix_lines (s : Tty) (ha : s.activeTty < maxTty) (es : List TtyEvent)
    (hes : AllSteps step (fun p e ↦ Larger p e ∧ Apart p e) (s.terminalOpen, empty) es) :
    Along step Disciplined (s.terminalOpen, empty) es := by
  have halong := AllSteps.along Holds (fun p e p' h hq hs ↦ h.step hq.1 hq.2 hs)
    (holds_open ha) hes
  exact fun es' p' hpre hexec ↦ (halong es' p' hpre hexec).disciplined

/-- A line with a character erased, typed before a switch and read after it, a line of the
other terminal, and an empty line. -/
theorem reads_prefix_lines_two_terminals :
    Along step Disciplined (Tty.boot.terminalOpen, empty)
      [.key 0x61, .key 0x62, .key 8, .key 0x0a, .switchTo 1, .read 0 128, .key 0x63, .key 0x0a,
        .read 1 128, .switchTo 0, .key 0x0a, .read 0 128] := by
  refine reads_prefix_lines Tty.boot (by decide) _ (AllSteps.of_decide ?_)
  decide

/-- Two lines are typed ahead; the first read returns both. -/
theorem typed_ahead :
    AllSteps step Larger (Tty.boot.terminalOpen, empty)
        [.key 0x61, .key 0x0a, .key 0x62, .key 0x0a, .read 0 128] ∧
      ¬ Along step Disciplined (Tty.boot.terminalOpen, empty)
        [.key 0x61, .key 0x0a, .key 0x62, .key 0x0a, .read 0 128] := by
  constructor
  · exact AllSteps.of_decide (by decide)
  · intro h
    obtain ⟨p', hexec, hreads, hlines⟩ : ∃ p', exec step (Tty.boot.terminalOpen, empty)
        [.key 0x61, .key 0x0a, .key 0x62, .key 0x0a, .read 0 128] = some p' ∧
        p'.2.reads 0 = [[0x61, 0x62]] ∧ p'.2.lines 0 = [[0x61], [0x62]] := ⟨_, rfl, rfl, rfl⟩
    have hprefix := h _ p' (List.prefix_refl _) hexec 0 (by decide)
    rw [hreads, hlines] at hprefix
    exact absurd hprefix (by decide)

end LineLog

end Illinix
