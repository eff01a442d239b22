import Illinix.Base.Iterate
import Illinix.Syscalls.Console

/-!
# The shell

`ece391shell.c` prints its prompt, reads a line into a buffer of 1024 bytes, puts a NUL behind it
and passes it to `execute`, until the line is `exit`.

`World.turn` is one turn of a command interpreter that knows nothing of descriptors or of the
functions on strings: it takes the line as it was edited, and puts it into the buffer that
`execute` gets.  `shell_interprets` says that the program is this interpreter, for any number of
rounds, and `shell_commands` which commands it has run.

The call of `execute` is a parameter: what it does to the world and returns, if it returns.  It may
look at the whole buffer, since `parse_args` reads on behind the NUL of a command of one word.
-/

namespace Illinix

open Base

/-! ## `ece391_strcmp` -/

/-- The loop of `ece391_strcmp`; `2 ^ 32` is its bound as for `strlen`. -/
def ece391StrcmpFrom (s₁ s₂ : Bytes) : Nat → Nat → Int
  | 0, _ => 0
  | fuel + 1, i =>
      if s₁ i = s₂ i then if s₁ i = 0 then 0 else ece391StrcmpFrom s₁ s₂ fuel (i + 1)
      else (s₁ i).toNat - (s₂ i).toNat

/-- `ece391_strcmp`. -/
def ece391Strcmp (s₁ s₂ : Bytes) : Int := ece391StrcmpFrom s₁ s₂ (2 ^ 32) 0

theorem ece391StrcmpFrom_eq_zero {s₁ s₂ : Bytes} {l₁ l₂ : List UInt8} {fuel i : Nat}
    (hfuel : l₁.length < fuel) (hne₁ : ∀ x ∈ l₁, x ≠ 0) (hne₂ : ∀ x ∈ l₂, x ≠ 0)
    (h₁ : ∀ j, j ≤ l₁.length → s₁ (i + j) = l₁.getD j 0)
    (h₂ : ∀ j, j ≤ l₂.length → s₂ (i + j) = l₂.getD j 0) :
    ece391StrcmpFrom s₁ s₂ fuel i = 0 ↔ l₁ = l₂ := by
  obtain ⟨fuel, rfl⟩ := Nat.exists_eq_succ_of_ne_zero (Nat.ne_zero_of_lt hfuel)
  have hdiff : ∀ a b : UInt8, a ≠ b → ((a.toNat : Int) - b.toNat = 0 ↔ False) := by
    intro a b hab
    refine iff_false_intro fun h ↦ hab (UInt8.toNat_inj.mp ?_)
    omega
  induction l₁ generalizing fuel i l₂ with
  | nil =>
      have hzero : s₁ i = 0 := h₁ 0 (Nat.le_refl 0)
      rw [ece391StrcmpFrom, hzero]
      cases l₂ with
      | nil =>
          have hzero' : s₂ i = 0 := h₂ 0 (Nat.le_refl 0)
          rw [if_pos hzero'.symm, if_pos rfl]
          exact iff_of_true rfl rfl
      | cons y l₂ =>
          have hy : s₂ i = y := h₂ 0 (Nat.zero_le _)
          have hne := hne₂ y List.mem_cons_self
          rw [hy, if_neg hne.symm, hdiff _ _ hne.symm]
          exact iff_of_false id (List.cons_ne_nil y l₂).symm
  | cons x l₁ ih =>
      obtain ⟨fuel, rfl⟩ := Nat.exists_eq_succ_of_ne_zero
        (Nat.ne_zero_of_lt (Nat.lt_of_succ_lt_succ hfuel))
      have hx : s₁ i = x := h₁ 0 (Nat.zero_le _)
      have hxne := hne₁ x List.mem_cons_self
      rw [ece391StrcmpFrom, hx]
      cases l₂ with
      | nil =>
          have hzero : s₂ i = 0 := h₂ 0 (Nat.le_refl 0)
          rw [hzero, if_neg hxne, hdiff _ _ hxne]
          exact iff_of_false id (List.cons_ne_nil x l₁)
      | cons y l₂ =>
          have hy : s₂ i = y := h₂ 0 (Nat.zero_le _)
          rw [hy]
          by_cases hxy : x = y
          · subst hxy
            have hrest := ih (fun z hz ↦ hne₁ z (List.mem_cons_of_mem _ hz))
              (fun z hz ↦ hne₂ z (List.mem_cons_of_mem _ hz))
              (fun j hj ↦ Bytes.getD_tail h₁ hj) (fun j hj ↦ Bytes.getD_tail h₂ hj) fuel
              (Nat.lt_of_succ_lt_succ hfuel)
            rw [if_pos rfl, if_neg hxne]
            exact hrest.trans (List.cons_inj_right x).symm
          · rw [if_neg hxy, hdiff _ _ hxy]
            exact iff_of_false id fun h ↦ hxy (List.cons.inj h).1

/-- Two strings compare as 0 if they are the same. -/
theorem ece391Strcmp_eq_zero_iff {s₁ s₂ : Bytes} {l₁ l₂ : List UInt8} (h₁ : s₁.Holds l₁)
    (h₂ : s₂.Holds l₂) (hlen : l₁.length < 2 ^ 32) : ece391Strcmp s₁ s₂ = 0 ↔ l₁ = l₂ := by
  refine ece391StrcmpFrom_eq_zero hlen h₁.1 h₂.1 (fun j hj ↦ ?_) fun j hj ↦ ?_
  · rw [Nat.zero_add, h₁.2 j hj]
  · rw [Nat.zero_add, h₂.2 j hj]

/-! ## The program -/

/-- What `execute` returns for the command at an address, and the world after it; `none` is a command
that does not end. -/
abbrev Execute := Bytes → World → Option (Int × World)

namespace World

/-- `execute`, of the string at `buf`. -/
def execute (exec : Execute) (w : World) (buf : Bytes) : Option (Int × World) :=
  exec buf { w with ran := w.ran ++ [cstring buf] }

/-- The message for what `execute` has returned, if there is one. -/
def verdict (rval : Int) : Option String :=
  if rval = -1 then some "no such command\n"
  else if rval = 256 then some "program terminated by exception\n"
  else if rval ≠ 0 then some "program terminated abnormally\n"
  else none

variable (exec : Execute)

/-- The body of the loop of `ece391shell.c`. -/
def shellRound (s : Bytes × World) : Option (Int × World) ⊕ (Bytes × World) :=
  match s.2.fdputs 1 (message "391OS> ") with
  | none => .inl none
  | some w =>
      let r := w.read 0 (1024 - 1)
      let buf := fill s.1 r.1.stored
      if -1 = r.1.ret then
        .inl ((r.2.fdputs 1 (message "read from keyboard failed\n")).map fun w ↦ (3, w))
      else
        let cnt := if r.1.ret > 0 ∧ 0x0a = buf (r.1.ret - 1).toNat then r.1.ret - 1 else r.1.ret
        let buf := Function.update buf cnt.toNat 0
        if 0 = ece391Strcmp buf (message "exit") then .inl (some (0, r.2))
        else if 0 = buf 0 then .inr (buf, r.2)
        else
          match r.2.execute exec buf with
          | none => .inl none
          | some (rval, w) =>
              match verdict rval with
              | none => .inr (buf, w)
              | some s => (w.fdputs 1 (message s)).elim (.inl none) fun w ↦ .inr (buf, w)

/-- `main` of `ece391shell.c`, for `n` rounds of its loop: what it returned, or the state that it
goes on in. -/
def shell (n : Nat) (buf : Bytes) (w : World) : Option (Int × World) ⊕ (Bytes × World) :=
  match w.fdputs 1 (message "Starting 391 Shell\n") with
  | none => .inl none
  | some w => rounds (shellRound exec) n (buf, w)

/-! ## The interpreter -/

/-- One turn: a prompt, a line, and the command it is. -/
def turn (s : Bytes × World) : Option (Int × World) ⊕ (Bytes × World) :=
  let w := s.2.print (chars "391OS> ")
  let line := w.line
  let buf := putLine s.1 line
  let w := w.answered 1023
  if line = chars "exit" then .inl (some (0, w))
  else if line = [] then .inr (buf, w)
  else
    match exec buf { w with ran := w.ran ++ [line] } with
    | none => .inl none
    | some (rval, w) => .inr (buf, w.print (((verdict rval).map chars).getD []))

/-! ## The program is the interpreter -/

/-- What a command leaves the shell with. -/
def KeepsReady (exec : Execute) : Prop :=
  ∀ c w r w', Ready 1023 w → exec c w = some (r, w') → Ready 1023 w'

theorem fdputs_verdict {w : World} (hc : Console w.tbl) {rval : Int} {s : String}
    (h : verdict rval = some s) : w.fdputs 1 (message s) = some (w.print (chars s)) := by
  rw [verdict] at h
  split at h
  · cases h
    exact fdputs_message hc _ (by decide) (by decide)
  · split at h
    · cases h
      exact fdputs_message hc _ (by decide) (by decide)
    · split at h
      · cases h
        exact fdputs_message hc _ (by decide) (by decide)
      · cases h

/-- The two go on in the same state, which is ready. -/
def GoesOn (s s' : Bytes × World) : Prop := s = s' ∧ Ready 1023 s'.2

variable {exec}

/-- **One round.** -/
theorem shellRound_turn (hexec : KeepsReady exec) {w : World} (h : Ready 1023 w) (buf : Bytes) :
    Sum.LiftRel Eq GoesOn (shellRound exec (buf, w)) (turn exec (buf, w)) := by
  have hprompt := h.print (chars "391OS> ")
  have hsize : 1023 ≤ 1023 := Nat.le_refl _
  obtain ⟨hret, -, hready, -⟩ := hprompt.terminalRead hsize (Nat.le_refl 1023)
  have hread := hprompt.read_keyboard hsize (Nat.le_refl 1023)
  have hbuf := hprompt.buffer hsize (Nat.le_refl 1023) buf
  have hholds := hprompt.line_holds hsize (Nat.le_refl 1023) buf
  have hlast := hprompt.last_ne_enter hsize (Nat.le_refl 1023) buf
  have hfits : (w.print (chars "391OS> ")).line.length ≤ 1023 :=
    (h.typed w.waits).fits _ (List.prefix_refl _)
  rw [shellRound, turn, fdputs_message h.console _ (by decide) (by decide)]
  dsimp only
  rw [show (1024 - 1 : Int) = (1023 : Nat) from rfl, hread]
  dsimp only
  rw [hbuf] at hholds
  generalize (w.print (chars "391OS> ")).terminalRead (1023 : Nat) = r at *
  generalize (w.print (chars "391OS> ")).answered 1023 = w' at *
  generalize (w.print (chars "391OS> ")).line = line at *
  rw [if_neg (by omega), if_neg hlast, hbuf]
  generalize putLine buf line = buf' at *
  have hexit : ece391Strcmp buf' (message "exit") = 0 ↔ line = chars "exit" :=
    ece391Strcmp_eq_zero_iff hholds (holds_message (by decide)) (by omega)
  have hempty : 0 = buf' 0 ↔ line = [] := by
    rw [hholds.2 0 (Nat.zero_le _)]
    cases hline : line with
    | nil => exact iff_of_true rfl rfl
    | cons x l =>
        refine iff_of_false (Ne.symm ?_) (List.cons_ne_nil x l)
        exact hholds.1 x (hline ▸ List.mem_cons_self)
  have hcommand : cstring buf' = line := hholds.cstring_eq (by omega)
  by_cases hword : line = chars "exit"
  · rw [if_pos (hexit.mpr hword).symm, if_pos hword]
    exact .inl rfl
  · rw [if_neg fun hc ↦ hword (hexit.mp hc.symm), if_neg hword]
    by_cases hnil : line = []
    · rw [if_pos (hempty.mpr hnil), if_pos hnil]
      exact .inr ⟨rfl, hready⟩
    · rw [if_neg fun hc ↦ hnil (hempty.mp hc), if_neg hnil, execute, hcommand]
      cases hrun : exec buf' { w' with ran := w'.ran ++ [line] } with
      | none => exact .inl rfl
      | some p =>
          obtain ⟨rval, w''⟩ := p
          have hready'' : Ready 1023 w'' := by
            refine hexec _ _ _ _ ?_ hrun
            exact ⟨hready.inside, hready.waiting, hready.pending, hready.keyboard, hready.console,
              hready.typed⟩
          dsimp only
          cases hv : verdict rval with
          | none =>
              rw [Option.map_none, Option.getD_none, print_nil]
              exact .inr ⟨rfl, hready''⟩
          | some s =>
              dsimp only
              rw [fdputs_verdict hready''.console hv]
              exact .inr ⟨rfl, hready''.print _⟩

/-- The interpreter, for `n` turns. -/
def interpret (exec : Execute) (n : Nat) (buf : Bytes) (w : World) :
    Option (Int × World) ⊕ (Bytes × World) :=
  rounds (turn exec) n (buf, w.print (chars "Starting 391 Shell\n"))

/-- The shell and the interpreter in step. -/
theorem shell_liftRel (hexec : KeepsReady exec) {w : World} (h : Ready 1023 w) (buf : Bytes)
    (n : Nat) : Sum.LiftRel Eq GoesOn (shell exec n buf w) (interpret exec n buf w) := by
  rw [shell, fdputs_message h.console _ (by decide) (by decide)]
  refine rounds_liftRel (R := GoesOn) ?_ n ⟨rfl, h.print _⟩
  rintro _ ⟨buf, w⟩ ⟨rfl, hready⟩
  exact shellRound_turn hexec hready buf

/-- The two in step are in the same state. -/
theorem shell_eq (hexec : KeepsReady exec) {w : World} (h : Ready 1023 w) (buf : Bytes) (n : Nat) :
    shell exec n buf w = interpret exec n buf w := by
  have hstep := shell_liftRel hexec h buf n
  generalize shell exec n buf w = r, interpret exec n buf w = r' at hstep
  cases hstep with
  | inl heq => rw [heq]
  | inr hrel => rw [hrel.1]

/-- **The shell is the interpreter.**  Begun at a ready terminal, with commands that leave it ready,
the program comes after any number of rounds to where the interpreter is after as many turns. -/
theorem shell_interprets (exec : Execute) (hexec : KeepsReady exec) (w : World) (h : Ready 1023 w)
    (buf : Bytes) (n : Nat) : shell exec n buf w = interpret exec n buf w :=
  shell_eq hexec h buf n

/-- A session: a mistyped command that is corrected, an empty line, and `exit`. -/
def session : World := atTerminal fun k ↦ [chars "lz" ++ [8] ++ chars "s", []].getD k (chars "exit")

theorem ready_session : Ready 1023 session := by
  refine ready_atTerminal fun k ↦ ?_
  rcases k with - | - | k
  · exact lineKeys_of_length (by decide) (by decide) (by decide)
  · exact lineKeys_of_length (by decide) (by decide) (by decide)
  · have hexit : LineKeys 1023 (chars "exit") :=
      lineKeys_of_length (by decide) (by decide) (by decide)
    exact hexit

/-- Commands that return at once. -/
theorem keepsReady_return (rval : Int) : KeepsReady fun _ w ↦ some (rval, w) := by
  rintro c w r w' hready hrun
  cases hrun
  exact hready

theorem shell_interprets_session :
    Ready 1023 session ∧
      shell (fun _ w ↦ some (0, w)) 3 (fun _ ↦ 0) session =
        interpret (fun _ w ↦ some (0, w)) 3 (fun _ ↦ 0) session :=
  ⟨ready_session, shell_interprets _ (keepsReady_return 0) session ready_session (fun _ ↦ 0) 3⟩

/-! ## The commands that are run -/

/-- The first `n` lines that are typed. -/
def lines (w : World) (n : Nat) : List (List UInt8) :=
  (List.range' w.waits n).map fun k ↦ edited (w.typed k)

/-- Commands that end, and leave the lines to come to the shell. -/
structure Quiet (exec : Execute) : Prop where
  ends : ∀ c w, ∃ p, exec c w = some p
  ready : KeepsReady exec
  typed : ∀ c w r w', exec c w = some (r, w') → w'.typed = w.typed
  waits : ∀ c w r w', exec c w = some (r, w') → w'.waits = w.waits
  ran : ∀ c w r w', exec c w = some (r, w') → w'.ran = w.ran

/-- The commands in some lines. -/
def commands (lines : List (List UInt8)) : List (List UInt8) :=
  (lines.takeWhile (· ≠ chars "exit")).filter (· ≠ [])

theorem lines_succ {w w' : World} (htyped : w'.typed = w.typed) (hwaits : w'.waits = w.waits + 1)
    (n : Nat) : w.lines (n + 1) = w.line :: w'.lines n := by
  rw [lines, lines, List.range'_succ, List.map_cons, htyped, hwaits]
  rfl

theorem commands_cons {l : List UInt8} (hl : l ≠ chars "exit") (rest : List (List UInt8)) :
    commands (l :: rest) = (if l = [] then [] else [l]) ++ commands rest := by
  rw [commands, commands, List.takeWhile_cons, if_pos (by simpa using hl), List.filter_cons]
  by_cases hnil : l = []
  · rw [if_pos hnil, if_neg (by simpa using hnil), List.nil_append]
  · rw [if_neg hnil, if_pos (by simpa using hnil), List.singleton_append]

/-- One turn, with a quiet command. -/
theorem turn_quiet (hq : Quiet exec) {w : World} (h : Ready 1023 w) (buf : Bytes) :
    if w.line = chars "exit" then ∃ w', turn exec (buf, w) = .inl (some (0, w')) ∧ w'.ran = w.ran
    else ∃ buf' w', turn exec (buf, w) = .inr (buf', w') ∧ Ready 1023 w' ∧ w'.typed = w.typed ∧
      w'.waits = w.waits + 1 ∧ w'.ran = w.ran ++ if w.line = [] then [] else [w.line] := by
  have hprompt := h.print (chars "391OS> ")
  obtain ⟨-, -, hready, -, htyped, hwaits, hran⟩ :=
    hprompt.terminalRead (Nat.le_refl 1023) (Nat.le_refl 1023)
  have hline : (w.print (chars "391OS> ")).line = w.line := rfl
  rw [turn]
  dsimp only
  rw [hline]
  generalize (w.print (chars "391OS> ")).answered 1023 = w₁ at *
  by_cases hexit : w.line = chars "exit"
  · rw [if_pos hexit, if_pos hexit]
    exact ⟨w₁, rfl, hran⟩
  · rw [if_neg hexit, if_neg hexit]
    by_cases hnil : w.line = []
    · rw [if_pos hnil, if_pos hnil]
      exact ⟨_, w₁, rfl, hready, htyped, hwaits, hran.trans (List.append_nil _).symm⟩
    · rw [if_neg hnil, if_neg hnil]
      obtain ⟨⟨rval, w₂⟩, hrun⟩ := hq.ends (putLine buf w.line) { w₁ with ran := w₁.ran ++ [w.line] }
      rw [hrun]
      have hready' : Ready 1023 { w₁ with ran := w₁.ran ++ [w.line] } :=
        ⟨hready.inside, hready.waiting, hready.pending, hready.keyboard, hready.console,
          hready.typed⟩
      refine ⟨_, _, rfl, (hq.ready _ _ _ _ hready' hrun).print _,
        (hq.typed _ _ _ _ hrun).trans htyped, (hq.waits _ _ _ _ hrun).trans hwaits,
        (hq.ran _ _ _ _ hrun).trans ?_⟩
      exact congrArg (· ++ [w.line]) hran

/-- The turns of the interpreter. -/
theorem interpret_quiet (hq : Quiet exec) (n : Nat) {w : World} (h : Ready 1023 w) (buf : Bytes) :
    ∃ w', w'.ran = w.ran ++ commands (w.lines n) ∧
      if chars "exit" ∈ w.lines n then rounds (turn exec) n (buf, w) = .inl (some (0, w'))
      else ∃ buf', rounds (turn exec) n (buf, w) = .inr (buf', w') := by
  induction n generalizing w buf with
  | zero => exact ⟨w, (List.append_nil _).symm, buf, rfl⟩
  | succ n ih =>
      have hturn := turn_quiet hq h buf
      by_cases hexit : w.line = chars "exit"
      · rw [if_pos hexit] at hturn
        obtain ⟨w', hleave, hran⟩ := hturn
        obtain ⟨rest, hlines⟩ : ∃ rest, w.lines (n + 1) = chars "exit" :: rest := by
          rw [lines, List.range'_succ, List.map_cons]
          exact ⟨_, congrArg (· :: _) hexit⟩
        refine ⟨w', ?_, ?_⟩
        · rw [hlines, commands, List.takeWhile_cons, if_neg (by simp), List.filter_nil,
            List.append_nil, hran]
        · rw [hlines, if_pos List.mem_cons_self]
          exact rounds_succ_of_inl hleave n
      · rw [if_neg hexit] at hturn
        obtain ⟨buf₁, w₁, hmore, hready, htyped, hwaits, hran⟩ := hturn
        obtain ⟨w', hran', hrest⟩ := ih hready buf₁
        have hlines := lines_succ htyped hwaits n
        refine ⟨w', ?_, ?_⟩
        · rw [hran', hran, hlines, commands_cons hexit, List.append_assoc]
        · have hmem : chars "exit" ∈ w.lines (n + 1) ↔ chars "exit" ∈ w₁.lines n := by
            rw [hlines, List.mem_cons, or_iff_right (Ne.symm hexit)]
          rw [rounds_succ_of_inr hmore]
          by_cases hlater : chars "exit" ∈ w₁.lines n
          · rw [if_pos hlater] at hrest
            rwa [if_pos (hmem.mpr hlater)]
          · rw [if_neg hlater] at hrest
            rwa [if_neg (mt hmem.mp hlater)]

/-- **The commands that a shell has run.**  Where commands end and leave the keyboard to the shell,
it has passed to `execute`, in order, the lines that are typed, but for the empty ones, up to the
first `exit`; it returns 0 there, and not before. -/
theorem shell_commands (exec : Execute) (hq : Quiet exec) (w : World) (h : Ready 1023 w)
    (buf : Bytes) (n : Nat) :
    ∃ w', w'.ran = w.ran ++ commands (w.lines n) ∧
      if chars "exit" ∈ w.lines n then shell exec n buf w = .inl (some (0, w'))
      else ∃ buf', shell exec n buf w = .inr (buf', w') := by
  rw [shell_eq hq.ready h]
  exact interpret_quiet hq n (h.print (chars "Starting 391 Shell\n")) buf

theorem quiet_return (rval : Int) : Quiet fun _ w ↦ some (rval, w) where
  ends _ _ := ⟨_, rfl⟩
  ready := keepsReady_return rval
  typed := by rintro c w r w' ⟨⟩; rfl
  waits := by rintro c w r w' ⟨⟩; rfl
  ran := by rintro c w r w' ⟨⟩; rfl

/-- The session above runs one command. -/
theorem shell_commands_session :
    commands (session.lines 3) = [chars "ls"] ∧
      ∃ w', w'.ran = session.ran ++ commands (session.lines 3) ∧
        if chars "exit" ∈ session.lines 3 then
          shell (fun _ w ↦ some (-1, w)) 3 (fun _ ↦ 0) session = .inl (some (0, w'))
        else ∃ buf', shell (fun _ w ↦ some (-1, w)) 3 (fun _ ↦ 0) session = .inr (buf', w') :=
  ⟨by decide, shell_commands _ (quiet_return (-1)) session ready_session (fun _ ↦ 0) 3⟩

end World

end Illinix
