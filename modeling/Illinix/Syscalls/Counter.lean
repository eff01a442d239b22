import Illinix.Base.Iterate
import Illinix.Lib.Itoa
import Illinix.Syscalls.Console

/-!
# Programs that ask for a line

`ece391hello.c` and `ece391counter.c` read one line and write an answer to it.  The loop of the
counter prints the numerals up to a number that the line selects; `counter_answer` says that it
comes to the end of that loop, and what is on the screen then.

The line has no newline at its end on this kernel, so the tests of the counter on the length of its
line take in more than one choice.
-/

namespace Illinix

open Base

/-! ## `ece391_itoa` -/

/-- `ece391_strrev`, which returns before its loop where there is nothing to reverse. -/
def ece391Strrev (s : Nat) (m : Bytes) : Bytes :=
  if strrevEnd (strlen (m.at s)) ≤ 0 then m else strrev s m

/-- `ece391_itoa`. -/
def ece391Itoa (value buf radix : Nat) (m : Bytes) : Bytes :=
  if value = 0 then Function.update (Function.update m buf 0x30) (buf + 1) 0
  else
    let written := itoaLoop radix 33 value buf m
    ece391Strrev buf (Function.update written.2 written.1 0)

/-- The functions of the programs are those of the kernel. -/
theorem ece391Itoa_eq (value buf radix : Nat) (m : Bytes) :
    ece391Itoa value buf radix m = itoa value buf radix m := by
  have hrev : ∀ s m, ece391Strrev s m = strrev s m := by
    intro s m
    rw [ece391Strrev]
    split
    · rename_i hle
      rw [strrev]
      cases hlen : strlen (m.at s) with
      | zero => rfl
      | succ len => rw [strrevLoop, if_neg (by rw [hlen] at hle; omega)]
    · rfl
  rw [ece391Itoa, itoa]
  simp only [hrev]

namespace World

/-! ## The programs -/

/-- `main` of `ece391hello.c`. -/
def hello (buf : Bytes) (w : World) : Option (Int × World) :=
  (w.fdputs 1 (message "Hi, what's your name? ")).bind fun w ↦
    let r := w.read 0 (1024 - 1)
    if -1 = r.1.ret then
      (r.2.fdputs 1 (message "Can't read name from keyboard.\n")).map fun w ↦ (3, w)
    else
      let buf := Function.update (fill buf r.1.stored) r.1.ret.toNat 0
      (r.2.fdputs 1 (message "Hello, ")).bind fun w ↦ (w.fdputs 1 buf).map fun w ↦ (0, w)

/-- The body of the loop of `ece391counter.c`; the state is `i`, `buf` and the world. -/
def counterRound (max : Nat) (s : Nat × Bytes × World) :
    Option (Int × World) ⊕ (Nat × Bytes × World) :=
  if s.1 < max then
    let buf := ece391Itoa (s.1 + 1) 0 10 s.2.1
    match (s.2.2.fdputs 1 buf).bind fun w ↦ w.fdputs 1 (message "\n") with
    | none => .inl none
    | some w => .inr (s.1 + 1, buf, w)
  else .inl (some (0, s.2.2))

/-- The `switch` of `ece391counter.c`. -/
def counterMax (choice : UInt8) : Nat :=
  if choice = 0x30 then 100
  else if choice = 0x31 then 10000
  else if choice = 0x32 then 100000
  else 0

/-- The tests on the line that is in the buffer. -/
def wrongChoice (buf : Bytes) : Prop :=
  strlen buf > 2 ∨ (strlen buf = 2 ∧ (buf 0 < 0x30 ∨ buf 0 > 0x32))

instance (buf : Bytes) : Decidable (wrongChoice buf) := inferInstanceAs (Decidable (_ ∨ _))

/-- What the counter asks for. -/
def question : String := "Enter the Test Number: (0): 100, (1): 10000, (2): 100000\n"

/-- `main` of `ece391counter.c`, with at most `n` rounds of its loop. -/
def counter (n : Nat) (buf : Bytes) (w : World) : Option (Int × World) :=
  (w.fdputs 1 (message question)).bind fun w ↦
    let r := w.read 0 (1024 - 1)
    if -1 = r.1.ret then
      (r.2.fdputs 1 (message "Can't read the number from keyboard.\n")).map fun w ↦ (3, w)
    else
      let buf := Function.update (fill buf r.1.stored) r.1.ret.toNat 0
      if wrongChoice buf then (r.2.fdputs 1 (message "Wrong Choice!\n")).map fun w ↦ (0, w)
      else (rounds (counterRound (counterMax (buf 0))) n (0, buf, r.2)).elim id fun _ ↦ none

/-! ## What the counter prints -/

/-- The numerals from 1 to `max`, each on a line of its own. -/
def count (max : Nat) : List UInt8 := (List.range max).flatMap fun i ↦ numeral 10 (i + 1) ++ [0x0a]

/-- What the counter answers to a line. -/
def counterAnswer (line : List UInt8) : List UInt8 :=
  if line.length > 2 then chars "Wrong Choice!\n"
  else
    match line with
    | [] => []
    | [c] => count (counterMax c)
    | c :: _ => if c < 0x30 ∨ c > 0x32 then chars "Wrong Choice!\n" else count (counterMax c)

/-- A round that goes on. -/
theorem counterRound_more {max i : Nat} (hi : i < max) (hmax : max < 2 ^ 32) {w : World}
    (hc : Console w.tbl) (buf : Bytes) :
    ∃ buf', counterRound max (i, buf, w) =
      .inr (i + 1, buf', w.print (numeral 10 (i + 1) ++ [0x0a])) := by
  have hnumeral := (itoa_holds (show 2 ≤ 10 by decide) (show 10 ≤ 36 by decide)
    (show i + 1 < 2 ^ 32 by omega) 0 buf).1
  have hlen : (numeral 10 (i + 1)).length < 2 ^ 32 := by
    have hdigits := length_digits_le (show 2 ≤ 10 by decide) (show i + 1 < 2 ^ 32 by omega)
    rw [numeral, if_neg (by omega), List.length_map, List.length_reverse]
    omega
  rw [Bytes.at_zero, ← ece391Itoa_eq] at hnumeral
  refine ⟨ece391Itoa (i + 1) 0 10 buf, ?_⟩
  rw [counterRound]
  dsimp only
  rw [if_pos hi, fdputs_one hc hnumeral hlen, Option.bind_some,
    fdputs_message (w := w.print _) hc _ (by decide) (by decide), print_print]
  rfl

/-- **The loop of the counter.** -/
theorem counterLoop {max : Nat} (hmax : max < 2 ^ 32) {w : World} (hc : Console w.tbl)
    (buf : Bytes) : Leaves (counterRound max) (0, buf, w) (some (0, w.print (count max))) := by
  let I : Nat → Nat × Bytes × World → Prop := fun k s ↦ ∃ buf, s = (k, buf, w.print (count k))
  have hmore : ∀ k, k < max → ∀ s, I k s → ∃ s', counterRound max s = .inr s' ∧ I (k + 1) s' := by
    rintro k hk _ ⟨buf, rfl⟩
    obtain ⟨buf', hround⟩ := counterRound_more (w := w.print (count k)) hk hmax hc buf
    refine ⟨_, hround, buf', ?_⟩
    rw [print_print, count, count, List.range_succ, List.flatMap_append, List.flatMap_singleton]
  have hdone : ∀ s, I max s →
      ∃ b, counterRound max s = .inl b ∧ b = some (0, w.print (count max)) := by
    rintro _ ⟨buf, rfl⟩
    exact ⟨_, if_neg (Nat.lt_irrefl max), rfl⟩
  have hstart : I 0 (0, buf, w) :=
    ⟨buf, by rw [count, List.range_zero, List.flatMap_nil, print_nil]⟩
  obtain ⟨b, hleaves, rfl⟩ := exists_leaves max hmore hdone hstart
  exact hleaves

theorem counterMax_lt (c : UInt8) : counterMax c < 2 ^ 32 := by
  rw [counterMax]
  split
  · decide
  · split
    · decide
    · split <;> decide

/-- The tests on the line, and what comes of them. -/
theorem counter_choice {buf : Bytes} {line : List UInt8} (h : buf.Holds line)
    (hlen : line.length < 2 ^ 32) :
    counterAnswer line =
      if wrongChoice buf then chars "Wrong Choice!\n" else count (counterMax (buf 0)) := by
  have hfirst := h.2 0 (Nat.zero_le _)
  have hstrlen := h.strlen_eq hlen
  rcases line with - | ⟨c, - | ⟨d, - | ⟨e, l⟩⟩⟩
  · simp [counterAnswer, wrongChoice, hfirst, hstrlen, count, counterMax]
  · simp [counterAnswer, wrongChoice, hfirst, hstrlen]
  · simp [counterAnswer, wrongChoice, hfirst, hstrlen]
  · simp [counterAnswer, wrongChoice, hstrlen]

/-- **What the counter does.**  At a ready terminal it ends with 0; behind its question and the line
that is typed, the screen shows the numerals from 1 to the number that the line selects, or that
the choice was wrong. -/
theorem counter_answer (w : World) (h : Ready 1023 w) (buf : Bytes) :
    ∃ N, ∀ n, N ≤ n → counter n buf w = some (0,
      ((w.print (chars question)).answered 1023).print (counterAnswer w.line)) := by
  have hprompt := h.print (chars question)
  have hsize : 1023 ≤ 1023 := Nat.le_refl _
  obtain ⟨hret, -, hready, -⟩ := hprompt.terminalRead hsize (Nat.le_refl 1023)
  have hread := hprompt.read_keyboard hsize (Nat.le_refl 1023)
  have hholds := hprompt.line_holds hsize (Nat.le_refl 1023) buf
  have hline : (w.print (chars question)).line = w.line := rfl
  have hfits : w.line.length ≤ 1023 := (h.typed w.waits).fits _ (List.prefix_refl _)
  have hroom : (1024 - 1 : Int) = (1023 : Nat) := rfl
  have hquestion : w.fdputs 1 (message question) = some (w.print (chars question)) :=
    fdputs_message h.console _ (by decide) (by decide)
  simp only [counter, hquestion, Option.bind_some, hroom, hread]
  rw [hline] at hholds hret
  generalize (w.print (chars question)).terminalRead (1023 : Nat) = r at *
  generalize (w.print (chars question)).answered 1023 = w' at *
  simp only [if_neg (show ¬ -1 = r.1.ret by omega)]
  generalize Function.update (fill buf r.1.stored) r.1.ret.toNat 0 = buf' at *
  rw [counter_choice hholds (by omega)]
  by_cases hwrong : wrongChoice buf'
  · refine ⟨0, fun n _ ↦ ?_⟩
    rw [if_pos hwrong, if_pos hwrong, fdputs_message hready.console _ (by decide) (by decide)]
    rfl
  · obtain ⟨N, hN⟩ := counterLoop (counterMax_lt (buf' 0)) hready.console buf'
    refine ⟨N, fun n hn ↦ ?_⟩
    rw [if_neg hwrong, if_neg hwrong, rounds_mono hN hn]
    rfl

theorem counter_answer_hundred :
    counterAnswer (chars "0") = count 100 ∧
      ∃ N, ∀ n, N ≤ n → counter n (fun _ ↦ 0) (atTerminal fun _ ↦ chars "0") = some (0,
        (((atTerminal fun _ ↦ chars "0").print (chars question)).answered 1023).print
          (counterAnswer (atTerminal fun _ ↦ chars "0").line)) :=
  ⟨rfl, counter_answer _ (ready_atTerminal fun _ ↦
    lineKeys_of_length (by decide) (by decide) (by decide)) (fun _ ↦ 0)⟩

/-- **What `hello` does.** -/
theorem hello_answer {w : World} (h : Ready 1023 w) (buf : Bytes) :
    hello buf w = some (0, ((w.print (chars "Hi, what's your name? ")).answered 1023).print
      (chars "Hello, " ++ w.line)) := by
  have hprompt := h.print (chars "Hi, what's your name? ")
  have hsize : 1023 ≤ 1023 := Nat.le_refl _
  obtain ⟨hret, -, hready, -⟩ := hprompt.terminalRead hsize (Nat.le_refl 1023)
  have hread := hprompt.read_keyboard hsize (Nat.le_refl 1023)
  have hholds := hprompt.line_holds hsize (Nat.le_refl 1023) buf
  have hline : (w.print (chars "Hi, what's your name? ")).line = w.line := rfl
  have hfits : w.line.length ≤ 1023 := (h.typed w.waits).fits _ (List.prefix_refl _)
  have hroom : (1024 - 1 : Int) = (1023 : Nat) := rfl
  have hasked : w.fdputs 1 (message "Hi, what's your name? ") =
      some (w.print (chars "Hi, what's your name? ")) :=
    fdputs_message h.console _ (by decide) (by decide)
  simp only [hello, hasked, Option.bind_some, hroom, hread]
  rw [hline] at hholds hret
  generalize (w.print (chars "Hi, what's your name? ")).terminalRead (1023 : Nat) = r at *
  generalize (w.print (chars "Hi, what's your name? ")).answered 1023 = w' at *
  rw [if_neg (by omega), fdputs_message hready.console _ (by decide) (by decide), Option.bind_some,
    fdputs_one (w := w'.print _) hready.console hholds (by omega), print_print]
  rfl

end World

end Illinix
