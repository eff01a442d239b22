import Illinix.Syscalls.World

/-!
# A program reads a line

`World.Ready` is a terminal on which nothing is pending, at which every line to come fits into the
buffer of the program.  `terminalRead_ready` goes through the whole way of a line: the keys that are
pressed edit the buffer of the driver, Enter lets the read through, and the read returns the line as
it was edited and leaves the terminal as ready as it was.

What the terminal is like is the same for every program, so the rules here do not name one.
-/

namespace Illinix

open Base

theorem Tty.key_enterStatus {c : UInt8} (hc : c ≠ 0x0a) (s : Tty) :
    (s.key c).enterStatus = s.enterStatus := by
  simp only [Tty.key, Tty.terminalWrite, Tty.writeLoop, hc, false_and, if_false]
  split
  · split <;> rfl
  · split <;> rfl

/-- A read that finds characters stores a NUL behind them. -/
theorem Tty.stored_cases (t : Nat) (n : Int) (s : Tty) :
    (Tty.terminalRead t n s).1 = ⟨0, []⟩ ∨
      (Tty.terminalRead t n s).1.stored = (Tty.terminalRead t n s).1.returned ++ [0] := by
  by_cases hempty : s.tail t = -1
  · left
    rw [Tty.terminalRead_empty hempty]
  · right
    rw [Tty.terminalRead_eq hempty, ReadResult.returned]
    exact congrArg (· ++ [0]) (List.take_left' (length_cells _ _ _)).symm

namespace Tty.Inside

variable {s : Tty} {c : UInt8}

/-- A key edits what is pending. -/
theorem key (h : s.Inside) (hroom : s.Room (.key c)) :
    (s.key c).Inside ∧ (s.key c).activeTty = s.activeTty ∧
      (s.key c).pending s.activeTty = Tty.edit c (s.pending s.activeTty) := by
  refine ⟨h.step hroom rfl, Tty.key_activeTty s c, ?_⟩
  rw [h.pending_step hroom rfl h.active_lt, Tty.queue, if_pos rfl]

/-- What a read returns is as long as its result says. -/
theorem read_ret (h : s.Inside) {n : Nat} :
    (Tty.terminalRead s.activeTty n s).1.ret = ((s.pending s.activeTty).take n).length := by
  obtain ⟨hlow, -⟩ := h.bounded _ h.active_lt
  by_cases hempty : s.tail s.activeTty = -1
  · rw [Tty.terminalRead_empty hempty, Tty.pending_eq_nil hempty, List.take_nil]
    rfl
  · rw [Tty.terminalRead_eq hempty, Tty.actualCopy_eq hlow (Int.natCast_nonneg n), List.length_take,
      Int.toNat_natCast]

end Tty.Inside

namespace World

/-- The characters of a line, as the keys edit it. -/
def edited (keys : List UInt8) : List UInt8 := keys.foldl (fun l c ↦ Tty.edit c l) []

/-- Keys that make a line of at most `size` characters at any time: no Enter and no NUL. -/
structure LineKeys (size : Nat) (keys : List UInt8) : Prop where
  plain : ∀ c ∈ keys, c ≠ 0x0a ∧ c ≠ 0
  fits : ∀ p, p <+: keys → (edited p).length ≤ size

/-- The program is at the terminal, and nothing was typed that it has not read. -/
structure Ready (size : Nat) (w : World) : Prop where
  inside : w.tty.Inside
  waiting : w.tty.enterStatus = false
  pending : w.tty.pending w.tty.activeTty = []
  keyboard : (w.tbl 0).flags = 1 ∧ (w.tbl 0).fileOperations = some .terminalInput
  console : Console w.tbl
  typed : ∀ k, LineKeys size (w.typed k)

/-- The line that the next read finds. -/
def line (w : World) : List UInt8 := edited (w.typed w.waits)

theorem edited_append (keys : List UInt8) (c : UInt8) :
    edited (keys ++ [c]) = Tty.edit c (edited keys) := by
  rw [edited, edited, List.foldl_append]
  rfl

theorem mem_edit {c x : UInt8} {l : List UInt8} (h : x ∈ Tty.edit c l) : x ∈ l ∨ x = c := by
  rw [Tty.edit] at h
  split at h
  · exact Or.inl (List.dropLast_subset l h)
  · split at h
    · exact Or.inl h
    · exact (List.mem_append.mp h).imp_right List.mem_singleton.mp

/-- A line is made of the keys that were pressed. -/
theorem mem_of_mem_edited {keys : List UInt8} {x : UInt8} (h : x ∈ edited keys) : x ∈ keys := by
  induction keys using List.reverseRecOn with
  | nil => exact h
  | append_singleton keys c ih =>
      rw [edited_append] at h
      rcases mem_edit h with hx | rfl
      · exact List.mem_append_left _ (ih hx)
      · exact List.mem_append_right _ List.mem_cons_self

/-! ## Keys -/

/-- What a key leaves alone. -/
structure SameTables (w w' : World) : Prop where
  img : w'.img = w.img
  args : w'.args = w.args
  tbl : w'.tbl = w.tbl
  typed : w'.typed = w.typed
  waits : w'.waits = w.waits
  ran : w'.ran = w.ran
  active : w'.tty.activeTty = w.tty.activeTty

/-- The terminal with the characters `l` of a line on it. -/
structure Holding (w : World) (l : List UInt8) : Prop where
  inside : w.tty.Inside
  waiting : w.tty.enterStatus = false
  pending : w.tty.pending w.tty.activeTty = l

variable {size : Nat} {w : World} {l : List UInt8} {c : UInt8}

theorem Holding.press (h : Holding w l) (hc : c ≠ 0x0a) (hl : l.length ≤ 1023) :
    Holding (w.press c) (Tty.edit c l) ∧ SameTables w (w.press c) := by
  have hroom : w.tty.Room (.key c) := fun _ ↦ by
    rw [h.pending, maxBufferSize]
    omega
  obtain ⟨hin, hactive, hpending⟩ := h.inside.key hroom
  have htty : (w.press c).tty = w.tty.key c := rfl
  refine ⟨⟨hin, ?_, ?_⟩, rfl, rfl, rfl, rfl, rfl, rfl, hactive⟩
  · rw [htty, Tty.key_enterStatus hc, h.waiting]
  · rw [htty, hactive, hpending, h.pending]

theorem SameTables.trans {w' w'' : World} (h : SameTables w w') (h' : SameTables w' w'') :
    SameTables w w'' :=
  ⟨h'.img.trans h.img, h'.args.trans h.args, h'.tbl.trans h.tbl, h'.typed.trans h.typed,
    h'.waits.trans h.waits, h'.ran.trans h.ran, h'.active.trans h.active⟩

/-- The keys of a line, one after the other. -/
theorem Holding.presses {keys : List UInt8} (h : Holding w []) (hsize : size ≤ 1023)
    (hkeys : LineKeys size keys) :
    Holding (keys.foldl World.press w) (edited keys) ∧
      SameTables w (keys.foldl World.press w) := by
  induction keys using List.reverseRecOn with
  | nil => exact ⟨h, rfl, rfl, rfl, rfl, rfl, rfl, rfl⟩
  | append_singleton keys c ih =>
      have hbefore : LineKeys size keys :=
        ⟨fun x hx ↦ hkeys.plain x (List.mem_append_left _ hx),
          fun p hp ↦ hkeys.fits p (hp.trans (List.prefix_append _ _))⟩
      obtain ⟨hold, hsame⟩ := ih hbefore
      obtain ⟨hold', hsame'⟩ := hold.press
        (hkeys.plain c (List.mem_append_right _ List.mem_cons_self)).1
        ((hbefore.fits keys (List.prefix_refl _)).trans hsize)
      rw [List.foldl_append, edited_append]
      exact ⟨hold', hsame.trans hsame'⟩

/-! ## A read -/

/-- Output on the screen leaves the keyboard alone. -/
theorem Ready.print (h : Ready size w) (l : List UInt8) : Ready size (w.print l) :=
  ⟨h.inside, h.waiting, h.pending, h.keyboard, h.console, h.typed⟩

/-- The world after the keys of a line and Enter, and a read of all of it. -/
def answered (w : World) (n : Nat) : World := (w.terminalRead n).2

/-- **A line is read.**  The read returns the line as it was edited, and the terminal is ready for
the next one. -/
theorem Ready.terminalRead (h : Ready size w) (hsize : size ≤ 1023) {n : Nat} (hn : size ≤ n) :
    (w.terminalRead n).1.ret = w.line.length ∧ (w.terminalRead n).1.returned = w.line ∧
      Ready size (w.answered n) ∧ (w.answered n).tbl = w.tbl ∧ (w.answered n).typed = w.typed ∧
      (w.answered n).waits = w.waits + 1 ∧ (w.answered n).ran = w.ran := by
  have hkeys := h.typed w.waits
  obtain ⟨hold, hsame⟩ := Holding.presses ⟨h.inside, h.waiting, h.pending⟩ hsize hkeys
  let typed := (w.typed w.waits).foldl World.press w
  -- Enter changes no more than `enter_status` and the screen
  have henter : w.waitEnter = { typed.press 0x0a with waits := typed.waits + 1 } := by
    rw [waitEnter, h.waiting, if_neg (by decide), hsame.waits]
  have htty : w.waitEnter.tty = { typed.tty with enterStatus := true } := by
    rw [henter]
    exact Tty.key_enter _
  have hin : w.waitEnter.tty.Inside := by
    rw [htty]
    exact ⟨hold.inside.active_lt, hold.inside.bounded⟩
  have hactive : w.waitEnter.tty.activeTty = w.tty.activeTty := by rw [htty]; exact hsame.active
  have hpending : w.waitEnter.tty.pending w.tty.activeTty = w.line := by
    rw [htty, ← hsame.active]
    exact hold.pending
  have hlen : w.line.length ≤ n := (hkeys.fits _ (List.prefix_refl _)).trans hn
  have hret := hin.read_ret (n := n)
  have hreturned := hin.bounded.returned_read (n := n) hin.active_lt (Int.natCast_nonneg n)
  have hrest := hin.bounded.pending_read_self (n := n) hin.active_lt (Int.natCast_nonneg n)
  have hin' := hin.bounded.read (n := n) hin.active_lt (Or.inl (Int.natCast_nonneg n))
  have hactive' := Tty.terminalRead_activeTty w.waitEnter.tty w.tty.activeTty n
  rw [hactive, hpending, List.take_of_length_le hlen] at hret
  rw [hactive, hpending, Int.toNat_natCast, List.take_of_length_le hlen] at hreturned
  rw [hactive, hpending, Int.toNat_natCast, List.drop_eq_nil_of_le hlen] at hrest
  rw [hactive] at hin' hactive'
  have htbl : w.waitEnter.tbl = w.tbl := by rw [henter]; exact hsame.tbl
  have htyped : w.waitEnter.typed = w.typed := by rw [henter]; exact hsame.typed
  refine ⟨hret, hreturned, ⟨⟨?_, hin'⟩, ?_, ?_, ?_, ?_, ?_⟩, htbl, htyped, ?_, ?_⟩
  · show (Tty.terminalRead w.tty.activeTty n w.waitEnter.tty).2.activeTty < maxTty
    rw [hactive']
    exact h.inside.active_lt
  · show (Tty.terminalRead w.tty.activeTty n w.waitEnter.tty).2.enterStatus = false
    by_cases hempty : w.waitEnter.tty.tail w.tty.activeTty = -1
    · rw [Tty.terminalRead_empty hempty]
    · rw [Tty.terminalRead_eq hempty]
  · show (Tty.terminalRead w.tty.activeTty n w.waitEnter.tty).2.pending
      (Tty.terminalRead w.tty.activeTty n w.waitEnter.tty).2.activeTty = []
    rw [hactive', hrest]
  · exact htbl ▸ h.keyboard
  · exact htbl ▸ h.console
  · exact htyped ▸ h.typed
  · show w.waitEnter.waits = _
    rw [henter]
    exact congrArg (· + 1) hsame.waits
  · show w.waitEnter.ran = _
    rw [henter]
    exact hsame.ran

/-- A read of descriptor 0 comes to the terminal. -/
theorem Ready.read_keyboard (h : Ready size w) (hsize : size ≤ 1023) {n : Nat} (hn : size ≤ n) :
    w.read 0 n = ((w.terminalRead n).1, w.answered n) := by
  obtain ⟨hflags, hops⟩ := h.keyboard
  have htbl : (w.answered n).tbl = w.tbl := (h.terminalRead hsize hn).2.2.2.1
  have hflags' : (w.tbl (Int.toNat 0)).flags = 1 := hflags
  have hops' : (w.tbl (Int.toNat 0)).fileOperations = some .terminalInput := hops
  have hdriver : driver w.tbl 0 = some .terminalInput := by
    rw [driver, if_neg, hops']
    rw [hflags', not_or]
    exact ⟨by decide, by decide⟩
  have hcall : ∀ dev, FdArray.read w.img dev w.tbl 0 n = (dev, w.tbl) := by
    intro dev
    rw [FdArray.read, if_neg (by decide), if_neg (by rw [hflags']; decide), hops']
    rfl
  rw [read, if_pos hdriver, hcall]
  refine Prod.ext rfl ?_
  show { w.answered n with tbl := w.tbl } = w.answered n
  rw [← htbl]

/-- A buffer after a line was put at its start, with a NUL behind it. -/
def putLine (buf : Bytes) (line : List UInt8) : Bytes := fill buf (line ++ [0])

theorem putLine_length (buf : Bytes) (line : List UInt8) : putLine buf line line.length = 0 := by
  rw [putLine, fill_apply, List.getD_append_right _ _ _ _ (Nat.le_refl _), Nat.sub_self]
  rfl

theorem holds_putLine (buf : Bytes) {line : List UInt8} (h : ∀ x ∈ line, x ≠ 0) :
    (putLine buf line).Holds line := by
  refine ⟨h, fun j hj ↦ ?_⟩
  rcases Nat.lt_or_eq_of_le hj with hlt | rfl
  · rw [putLine, fill_apply, List.getD_append _ _ _ _ hlt, List.getD_eq_getElem _ _ hlt,
      List.getD_eq_getElem _ _ hlt]
  · rw [putLine_length, List.getD_eq_default _ _ (Nat.le_refl _)]

/-- **The buffer of a program**, once the program has put a NUL behind what it has read.  The bytes
of earlier lines are still behind that. -/
theorem Ready.buffer (h : Ready size w) (hsize : size ≤ 1023) {n : Nat} (hn : size ≤ n)
    (buf : Bytes) :
    Function.update (fill buf (w.terminalRead n).1.stored) (w.terminalRead n).1.ret.toNat 0 =
      putLine buf w.line := by
  obtain ⟨hret, hreturned, -⟩ := h.terminalRead hsize hn
  have hstored : (w.terminalRead n).1 = ⟨0, []⟩ ∨
      (w.terminalRead n).1.stored = (w.terminalRead n).1.returned ++ [0] :=
    Tty.stored_cases w.tty.activeTty n w.waitEnter.tty
  rcases hstored with hnone | hstored
  · rw [hnone] at hret hreturned ⊢
    have hline : w.line = [] := hreturned.symm
    rw [hline]
    refine funext fun i ↦ ?_
    cases i with
    | zero => rfl
    | succ i =>
        refine (Function.update_of_ne (Nat.succ_ne_zero i) _ _).trans ?_
        rw [putLine, fill_apply, fill_apply]
        rfl
  · rw [hstored, hreturned, hret, Int.toNat_natCast, ← putLine]
    exact Function.update_eq_self_iff.mpr (putLine_length buf w.line).symm

theorem Ready.line_ne_zero (h : Ready size w) : ∀ x ∈ w.line, x ≠ 0 := fun x hx ↦
  ((h.typed w.waits).plain x (mem_of_mem_edited hx)).2

/-- It holds the line. -/
theorem Ready.line_holds (h : Ready size w) (hsize : size ≤ 1023) {n : Nat} (hn : size ≤ n)
    (buf : Bytes) :
    Bytes.Holds (Function.update (fill buf (w.terminalRead n).1.stored)
      (w.terminalRead n).1.ret.toNat 0) w.line := by
  rw [h.buffer hsize hn]
  exact holds_putLine buf h.line_ne_zero

/-- The line has no newline at its end that a program could take off. -/
theorem Ready.last_ne_enter (h : Ready size w) (hsize : size ≤ 1023) {n : Nat} (hn : size ≤ n)
    (buf : Bytes) :
    ¬ ((w.terminalRead n).1.ret > 0 ∧
      0x0a = fill buf (w.terminalRead n).1.stored ((w.terminalRead n).1.ret - 1).toNat) := by
  obtain ⟨hret, -⟩ := h.terminalRead hsize hn
  have hholds := h.line_holds hsize hn buf
  rw [hret, Int.toNat_natCast] at hholds
  rw [hret]
  rintro ⟨hpos, hnl⟩
  have hj : ((w.line.length : Int) - 1).toNat < w.line.length := by omega
  have hget := hholds.2 _ hj.le
  rw [Function.update_of_ne hj.ne, ← hnl, List.getD_eq_getElem _ _ hj] at hget
  have hmem := mem_of_mem_edited (List.getElem_mem hj)
  exact ((h.typed w.waits).plain _ hmem).1 hget.symm

/-! ## A process at a terminal -/

/-- A process that has just been started, at a terminal at which the given keys are pressed. -/
def atTerminal (typed : Nat → List UInt8) : World :=
  { img := tinyImage, args := fun _ ↦ 0, tbl := FdArray.create fun _ ↦ ⟨none, 0, 0, 0, 0⟩,
    tty := Tty.boot.terminalOpen, typed := typed, waits := 0, screen := [], ran := [] }

theorem ready_atTerminal {typed : Nat → List UInt8} (h : ∀ k, LineKeys size (typed k)) :
    Ready size (atTerminal typed) where
  inside := Tty.inside_open (by decide)
  waiting := rfl
  pending := rfl
  keyboard := ⟨rfl, rfl⟩
  console := console_create _
  typed := h

/-- Few keys make a short line. -/
theorem lineKeys_of_length {keys : List UInt8} (hnewline : 0x0a ∉ keys) (hzero : 0 ∉ keys)
    (hlen : keys.length ≤ size) : LineKeys size keys := by
  have hedited : ∀ p : List UInt8, (edited p).length ≤ p.length := by
    intro p
    induction p using List.reverseRecOn with
    | nil => exact Nat.le_refl 0
    | append_singleton p c ih =>
        have hedit : (Tty.edit c (edited p)).length ≤ (edited p).length + 1 := by
          rw [Tty.edit]
          split
          · rw [List.length_dropLast]
            omega
          · split
            · exact Nat.le_succ _
            · rw [List.length_append, List.length_singleton]
        rw [edited_append, List.length_append, List.length_singleton]
        omega
  refine ⟨fun c hc ↦ ⟨?_, ?_⟩, fun p hp ↦ (hedited p).trans (hp.length_le.trans hlen)⟩
  · exact fun heq ↦ hnewline (heq ▸ hc)
  · exact fun heq ↦ hzero (heq ▸ hc)

end World

end Illinix
