import Illinix.Base.Store
import Illinix.Process.Exec
import Mathlib.Data.List.TakeWhile

/-!
# Splitting a command

`parse_args` cuts a command into `program`, a buffer of `FILE_NAME_SIZE` bytes, and `args`, one of
`ARGS_ARR_SIZE`.  Here it goes store by store.  Both buffers lie in the frame of `execute`, above
the one of `parse_args`, so a store past their end changes neither an index of the loops nor the
command, and the logs hold for every command.

Two loops share the index `i`.  The second one starts a byte after the one that ended the first
word: if that was the NUL, it goes on behind the command.  `parse_args_splits_iff` says when this
does not show.  The loop for the first word stops at `COMMAND_SIZE` only, and `program` is shorter:
`parse_args_inside_iff`.
-/

namespace Illinix

open Base

/-! ## The stores of `parse_args` -/

/-- The loop for the program name: its stores to `program`, and `i` and `fi` after it. -/
def nameStores (command : Bytes) : Nat → Nat → Nat → List (Nat × UInt8) × Nat × Nat
  | 0, i, fi => ([], i, fi)
  | fuel + 1, i, fi =>
      if command i = 0x20 ∨ command i = 0 then ([], i, fi)
      else
        let rest := nameStores command fuel (i + 1) (fi + 1)
        ((fi, command i) :: rest.1, rest.2)

/-- The loop for the arguments: its stores to `args`, and `ai` after it. -/
def argStores (command : Bytes) : Nat → Nat → Nat → List (Nat × UInt8) × Nat
  | 0, _, ai => ([], ai)
  | fuel + 1, i, ai =>
      if command i = 0 then ([], ai)
      else
        let rest := argStores command fuel (i + 1) (ai + 1)
        ((ai, command i) :: rest.1, rest.2)

/-- The stores of `parse_args` to `program` and to `args`. -/
def parseArgsStores (command : Bytes) : List (Nat × UInt8) × List (Nat × UInt8) :=
  let name := nameStores command commandSize 0 0
  let i := name.2.1 + 1
  let text := argStores command (commandSize - i) i 0
  (logAt 0 (List.replicate fileNameSize 0) ++ name.1 ++ [(name.2.2, 0)],
    logAt 0 (List.replicate argsArrSize 0) ++ text.1 ++ [(text.2, 0)])

/-- `program` and `args` after `parse_args`, which finds anything in them. -/
def parseArgsInto (command program args : Bytes) : Bytes × Bytes :=
  (applyLog program (parseArgsStores command).1, applyLog args (parseArgsStores command).2)

theorem nameStores_eq (command : Bytes) (fuel i fi : Nat) :
    nameStores command fuel i fi =
      (logAt fi (programLoop command fuel i), i + (programLoop command fuel i).length,
        fi + (programLoop command fuel i).length) := by
  induction fuel generalizing i fi with
  | zero => rfl
  | succ fuel ih =>
      rw [nameStores, programLoop]
      split
      · rfl
      · simp only [ih, logAt, List.length_cons, Nat.add_assoc, Nat.add_comm 1]

theorem argStores_eq (command : Bytes) (fuel i ai : Nat) :
    argStores command fuel i ai =
      (logAt ai (argsLoop command fuel i), ai + (argsLoop command fuel i).length) := by
  induction fuel generalizing i ai with
  | zero => rfl
  | succ fuel ih =>
      rw [argStores, argsLoop]
      split
      · rfl
      · simp only [ih, logAt, List.length_cons, Nat.add_assoc, Nat.add_comm 1]

/-- The stores of a loop over `l` into a buffer of `n` bytes that is cleared first, and the NUL
behind them. -/
def fillStores (n : Nat) (l : List UInt8) : List (Nat × UInt8) :=
  logAt 0 (List.replicate n 0) ++ logAt 0 l ++ [(l.length, 0)]

/-- **The stores are those of the two strings.** -/
theorem parseArgsStores_eq (command : Bytes) :
    parseArgsStores command =
      (fillStores fileNameSize (parseArgs command).1, fillStores argsArrSize (parseArgs command).2) := by
  simp only [parseArgsStores, nameStores_eq, argStores_eq, Nat.zero_add]
  rfl

/-- What the buffer holds. -/
theorem applyLog_fillStores (m : Bytes) {n : Nat} (l : List UInt8) {j : Nat} (hj : j < n) :
    applyLog m (fillStores n l) j = l.getD j 0 := by
  have hnul : applyLog (applyLog m (logAt 0 (List.replicate n 0))) (logAt 0 l) j = l.getD j 0 := by
    rw [applyLog_logAt_zero, applyLog_logAt_zero]
    congr 1
    simp [hj]
  rw [fillStores, applyLog_append, applyLog_append, applyLog_cons, applyLog_nil]
  by_cases heq : j = l.length
  · subst heq
    simp
  · rw [Function.update_of_ne heq, hnul]

/-- Where the stores go. -/
theorem mem_fillStores {n i : Nat} {l : List UInt8} :
    i ∈ (fillStores n l).map Prod.fst ↔ i < n ∨ i ≤ l.length := by
  rw [fillStores, List.map_append, List.map_append, List.mem_append, List.mem_append,
    mem_logAt_fst, mem_logAt_fst, List.map_singleton, List.mem_singleton, List.length_replicate]
  dsimp only
  omega

/-! ## What a command stands for -/

/-- The bytes of a command up to its NUL. -/
def commandText (command : Bytes) : List UInt8 := cstr command commandSize

/-- The word up to the first space. -/
def commandWord (command : Bytes) : List UInt8 := (commandText command).takeWhile (· ≠ 0x20)

/-- The text behind the first space. -/
def commandArgs (command : Bytes) : List UInt8 :=
  ((commandText command).dropWhile (· ≠ 0x20)).tail

/-- `parse_args` splits the command: `program` holds the first word and `args` the rest, both
filled up with NULs. -/
def Splits (command : Bytes) : Prop :=
  ∀ program args,
    (∀ j, j < fileNameSize →
      (parseArgsInto command program args).1 j = (commandWord command).getD j 0) ∧
    ∀ j, j < argsArrSize →
      (parseArgsInto command program args).2 j = (commandArgs command).getD j 0

/-- Two memories hold the same command, up to its NUL. -/
def SameCommand (command command' : Bytes) : Prop :=
  ∀ j, j ≤ strlen command → command' j = command j

section Text

variable {command : Bytes}

theorem programLoop_eq (command : Bytes) (fuel i : Nat) :
    programLoop command fuel i = (cstrFrom command fuel i).takeWhile (· ≠ 0x20) := by
  induction fuel generalizing i with
  | zero => rfl
  | succ fuel ih =>
      rw [programLoop, cstrFrom]
      by_cases h0 : command i = 0
      · rw [if_pos (Or.inr h0), if_pos h0, List.takeWhile_nil]
      · by_cases hspace : command i = 0x20
        · rw [if_pos (Or.inl hspace), if_neg h0, List.takeWhile_cons_of_neg (by simp [hspace])]
        · rw [if_neg (not_or.mpr ⟨hspace, h0⟩), if_neg h0,
            List.takeWhile_cons_of_pos (by simp [hspace]), ih]

theorem argsLoop_eq (command : Bytes) (fuel i : Nat) :
    argsLoop command fuel i = cstrFrom command fuel i := by
  induction fuel generalizing i with
  | zero => rfl
  | succ fuel ih => rw [argsLoop, cstrFrom, ih]

/-- The first word is split off, whatever follows. -/
theorem firstWord_eq (command : Bytes) : firstWord command = commandWord command :=
  programLoop_eq command commandSize 0

theorem parseArgs_snd (command : Bytes) : (parseArgs command).2 =
    cstrFrom command (commandSize - ((commandWord command).length + 1))
      ((commandWord command).length + 1) := by
  rw [parseArgs, argsLoop_eq, firstWord_eq]

theorem commandArgs_eq_drop (command : Bytes) :
    commandArgs command = (commandText command).drop ((commandWord command).length + 1) := by
  have happ : commandWord command ++ (commandText command).dropWhile (· ≠ 0x20) =
      commandText command := List.takeWhile_append_dropWhile
  rw [commandArgs, ← List.drop_one, ← List.drop_drop]
  nth_rewrite 2 [← happ]
  rw [List.drop_left]

theorem length_commandWord_le (command : Bytes) :
    (commandWord command).length ≤ (commandText command).length :=
  (List.takeWhile_prefix _).length_le

/-- The first word is the whole command exactly if there is no space. -/
theorem mem_commandText_iff :
    0x20 ∈ commandText command ↔ (commandWord command).length < (commandText command).length := by
  constructor
  · intro h
    refine (length_commandWord_le command).lt_of_ne fun heq ↦ ?_
    have hself := (List.takeWhile_prefix _).eq_of_length heq
    have hall := List.takeWhile_eq_self_iff.mp hself 0x20 h
    exact absurd hall (by decide)
  · intro hlt
    by_contra hno
    have hself : commandWord command = commandText command := by
      refine List.takeWhile_eq_self_iff.mpr fun x hx ↦ decide_eq_true ?_
      rintro rfl
      exact hno hx
    rw [hself] at hlt
    exact absurd hlt (Nat.lt_irrefl _)

/-- With a space, the rest of the command is split off. -/
theorem parseArgs_snd_of_mem (h : 0x20 ∈ commandText command) :
    (parseArgs command).2 = commandArgs command := by
  have hlt := mem_commandText_iff.mp h
  rw [parseArgs_snd, commandArgs_eq_drop, commandText, cstr, drop_cstrFrom _ _ _ hlt, Nat.zero_add]

/-- Without one, the second loop reads what is behind the NUL. -/
theorem parseArgs_snd_of_not_mem (hlen : strlen command < commandSize)
    (h : 0x20 ∉ commandText command) :
    commandArgs command = [] ∧ (commandWord command).length = strlen command ∧
      (parseArgs command).2 = cstrFrom command (commandSize - (strlen command + 1))
        (strlen command + 1) := by
  rw [mem_commandText_iff, Nat.not_lt] at h
  have htext : (commandText command).length = strlen command :=
    length_cstr hlen.le (by decide)
  have hword := (length_commandWord_le command).antisymm h
  rw [htext] at hword
  refine ⟨?_, hword, by rw [parseArgs_snd, hword]⟩
  rw [commandArgs_eq_drop]
  exact List.drop_eq_nil_of_le (by omega)

theorem parseArgsInto_fst (program args : Bytes) {j : Nat} (hj : j < fileNameSize) :
    (parseArgsInto command program args).1 j = (commandWord command).getD j 0 := by
  have hfill := applyLog_fillStores program (parseArgs command).1 hj
  have hword : (parseArgs command).1 = commandWord command := firstWord_eq command
  rw [parseArgsInto, parseArgsStores_eq]
  dsimp only
  rw [hfill, hword]

theorem parseArgsInto_snd (program args : Bytes) {j : Nat} (hj : j < argsArrSize) :
    (parseArgsInto command program args).2 j = (parseArgs command).2.getD j 0 := by
  have hfill := applyLog_fillStores args (parseArgs command).2 hj
  rw [parseArgsInto, parseArgsStores_eq]
  dsimp only
  rw [hfill]

/-- Without a space, `args` begins with the byte behind the NUL. -/
theorem parseArgsInto_snd_zero (hlen : strlen command < commandSize)
    (hword : (commandWord command).length < fileNameSize) (h : 0x20 ∉ commandText command)
    (program args : Bytes) :
    (parseArgsInto command program args).2 0 = command (strlen command + 1) := by
  obtain ⟨-, hlength, hargs⟩ := parseArgs_snd_of_not_mem hlen h
  rw [hlength] at hword
  obtain ⟨fuel, hfuel⟩ : ∃ fuel, commandSize - (strlen command + 1) = fuel + 1 := by
    refine ⟨commandSize - (strlen command + 2), ?_⟩
    simp only [commandSize, fileNameSize] at hword ⊢
    omega
  rw [parseArgsInto_snd _ _ (by decide), hargs, hfuel, cstrFrom]
  split
  · rename_i h0
    exact h0.symm
  · rfl

/-- The bytes up to the NUL determine the text. -/
theorem SameCommand.text {command' : Bytes} (h : SameCommand command command')
    (hlen : strlen command < commandSize) :
    strlen command' = strlen command ∧ commandText command' = commandText command := by
  have hzero := eq_zero_at_strlen (hlen.trans (by decide))
  have hlow := (strlenFrom_spec command (2 ^ 32) 0).2.1
  constructor
  · refine strlen_eq (by rw [h _ (Nat.le_refl _), hzero]) (fun j hj ↦ ?_) (hlen.trans (by decide))
    rw [h j hj.le]
    exact hlow j (Nat.zero_le j) hj
  · refine ((cstr_eq_iff command command' commandSize).mpr fun j _ hne ↦ ?_).symm
    by_cases hj : j ≤ strlen command
    · exact (h j hj).symm
    · exact absurd hzero (hne _ (Nat.not_le.mp hj))

/-- A command is split if and only if it has a space, or another NUL right behind it. -/
theorem splits_iff (hlen : strlen command < commandSize)
    (hword : (commandWord command).length < fileNameSize) :
    Splits command ↔ 0x20 ∈ commandText command ∨ command (strlen command + 1) = 0 := by
  by_cases hmem : 0x20 ∈ commandText command
  · refine iff_of_true (fun program args ↦ ⟨fun j hj ↦ parseArgsInto_fst program args hj, ?_⟩)
      (Or.inl hmem)
    intro j hj
    rw [parseArgsInto_snd program args hj, parseArgs_snd_of_mem hmem]
  · obtain ⟨hnil, -, hargs⟩ := parseArgs_snd_of_not_mem hlen hmem
    rw [or_iff_right hmem]
    constructor
    · intro h
      have hzero := (h command command).2 0 (by decide)
      rwa [parseArgsInto_snd_zero hlen hword hmem, hnil] at hzero
    · intro hzero program args
      refine ⟨fun j hj ↦ parseArgsInto_fst program args hj, fun j hj ↦ ?_⟩
      rw [parseArgsInto_snd program args hj, hnil, hargs]
      cases commandSize - (strlen command + 1) with
      | zero => rfl
      | succ fuel => rw [cstrFrom, if_pos hzero]

/-- With a space in the command, nothing behind it matters. -/
theorem SameCommand.parseArgsInto_eq {command' : Bytes} (h : SameCommand command command')
    (hlen : strlen command < commandSize) (hmem : 0x20 ∈ commandText command)
    (program args : Bytes) :
    (∀ j, j < fileNameSize →
        (parseArgsInto command' program args).1 j = (parseArgsInto command program args).1 j) ∧
      ∀ j, j < argsArrSize →
        (parseArgsInto command' program args).2 j = (parseArgsInto command program args).2 j := by
  obtain ⟨-, htext⟩ := h.text hlen
  constructor
  · intro j hj
    rw [parseArgsInto_fst program args hj, parseArgsInto_fst program args hj, commandWord, htext,
      commandWord]
  · intro j hj
    rw [parseArgsInto_snd program args hj, parseArgsInto_snd program args hj,
      parseArgs_snd_of_mem hmem, parseArgs_snd_of_mem (by rwa [htext]), commandArgs, htext,
      commandArgs]

/-- Without one, the byte right behind its NUL does. -/
theorem exists_sameCommand (hlen : strlen command < commandSize)
    (hword : (commandWord command).length < fileNameSize) (hmem : 0x20 ∉ commandText command) :
    ∃ command', SameCommand command command' ∧
      (parseArgsInto command' command command).2 0 ≠ (parseArgsInto command command command).2 0 := by
  let next : UInt8 := if command (strlen command + 1) = 0 then 1 else 0
  have hnext : next ≠ command (strlen command + 1) := by
    show (if command (strlen command + 1) = 0 then (1 : UInt8) else 0) ≠ _
    split
    · rename_i h0
      rw [h0]
      decide
    · rename_i h0
      exact Ne.symm h0
  have hsame : SameCommand command (Function.update command (strlen command + 1) next) :=
    fun j hj ↦ Function.update_of_ne (by omega) _ _
  obtain ⟨hlength, htext⟩ := hsame.text hlen
  refine ⟨_, hsame, ?_⟩
  rw [parseArgsInto_snd_zero hlen hword hmem,
    parseArgsInto_snd_zero (by rwa [hlength]) (by rwa [commandWord, htext]) (by rwa [htext]),
    hlength, Function.update_self]
  exact hnext

end Text

/-- **When a command is split.**  A command of fewer than `COMMAND_SIZE` bytes, with a first word
that fits, is split into its first word and the text behind its first space if and only if there
is a space, or another NUL right behind the command; and the result is independent of the bytes
behind the command if and only if there is a space. -/
theorem parse_args_splits_iff (command : Bytes) (hlen : strlen command < commandSize)
    (hword : (commandWord command).length < fileNameSize) :
    (Splits command ↔ 0x20 ∈ commandText command ∨ command (strlen command + 1) = 0) ∧
      ((∀ command', SameCommand command command' → ∀ program args,
          (∀ j, j < fileNameSize → (parseArgsInto command' program args).1 j =
            (parseArgsInto command program args).1 j) ∧
          ∀ j, j < argsArrSize → (parseArgsInto command' program args).2 j =
            (parseArgsInto command program args).2 j) ↔
        0x20 ∈ commandText command) := by
  refine ⟨splits_iff hlen hword, fun h ↦ ?_, fun hmem command' hsame program args ↦
    hsame.parseArgsInto_eq hlen hmem program args⟩
  by_contra hmem
  obtain ⟨command', hsame, hne⟩ := exists_sameCommand hlen hword hmem
  exact hne ((h command' hsame command command).2 0 (by decide))

/-- `cat a`, with bytes of an earlier command behind it. -/
theorem parse_args_splits_iff_cat :
    Splits (Bytes.ofList [0x63, 0x61, 0x74, 0x20, 0x61, 0, 0x78]) := by
  have hlen : strlen (Bytes.ofList [0x63, 0x61, 0x74, 0x20, 0x61, 0, 0x78]) = 5 :=
    strlen_eq rfl (by decide) (by decide)
  exact (parse_args_splits_iff _ (by rw [hlen]; decide) (by decide)).1.mpr (Or.inl (by decide))

/-- `ls`, in a buffer that held `cat x`: what is left of that becomes its argument. -/
theorem parse_args_reads_on :
    ¬ Splits (Bytes.ofList [0x6c, 0x73, 0, 0x20, 0x78]) ∧
      (parseArgsInto (Bytes.ofList [0x6c, 0x73, 0, 0x20, 0x78]) (fun _ ↦ 0) fun _ ↦ 0).2 1 = 0x78 := by
  refine ⟨fun h ↦ ?_, by decide⟩
  exact absurd ((h (fun _ ↦ 0) fun _ ↦ 0).2 1 (by decide)) (by decide)

/-! ## The output buffers -/

/-- The first word is shorter than `n` if one of the first `n` bytes ends it. -/
theorem length_programLoop_lt {command : Bytes} {fuel i n : Nat} (hn : n ≤ fuel) :
    (programLoop command fuel i).length < n ↔
      ∃ j, j < n ∧ (command (i + j) = 0x20 ∨ command (i + j) = 0) := by
  induction n generalizing fuel i with
  | zero => exact ⟨fun h ↦ absurd h (Nat.not_lt_zero _), fun ⟨j, hj, _⟩ ↦ absurd hj (Nat.not_lt_zero j)⟩
  | succ n ih =>
      obtain ⟨fuel, rfl⟩ : ∃ fuel', fuel = fuel' + 1 := ⟨fuel - 1, by omega⟩
      rw [programLoop]
      split
      · rename_i hstop
        exact iff_of_true (Nat.succ_pos n) ⟨0, Nat.succ_pos n, hstop⟩
      · rename_i hgo
        rw [List.length_cons, Nat.succ_lt_succ_iff, ih (Nat.le_of_succ_le_succ hn)]
        constructor
        · rintro ⟨j, hj, hstop⟩
          exact ⟨j + 1, Nat.succ_lt_succ hj, by rwa [Nat.add_comm j 1, ← Nat.add_assoc]⟩
        · rintro ⟨j, hj, hstop⟩
          cases j with
          | zero => exact absurd hstop hgo
          | succ j =>
              exact ⟨j, Nat.lt_of_succ_lt_succ hj, by rwa [Nat.add_assoc, Nat.add_comm 1 j]⟩

/-- The arguments always fit. -/
theorem length_parseArgs_snd_lt (command : Bytes) : (parseArgs command).2.length < argsArrSize := by
  have hle := length_cstrFrom_le command (commandSize - ((commandWord command).length + 1))
    ((commandWord command).length + 1)
  rw [parseArgs_snd]
  simp only [commandSize, argsArrSize] at hle ⊢
  omega

/-- **When `parse_args` stays inside its buffers.**  For every command, every index written in
`program` and in `args` is inside the buffer if and only if one of the first `FILE_NAME_SIZE` bytes
of the command is a space or a NUL. -/
theorem parse_args_inside_iff (command : Bytes) :
    ((∀ i ∈ (parseArgsStores command).1.map Prod.fst, i < fileNameSize) ∧
        ∀ i ∈ (parseArgsStores command).2.map Prod.fst, i < argsArrSize) ↔
      ∃ j, j < fileNameSize ∧ (command j = 0x20 ∨ command j = 0) := by
  have hlt : (programLoop command commandSize 0).length < fileNameSize ↔ _ :=
    length_programLoop_lt (show fileNameSize ≤ commandSize by decide)
  simp only [Nat.zero_add] at hlt
  rw [← hlt, parseArgsStores_eq]
  simp only [mem_fillStores]
  constructor
  · rintro ⟨hprogram, -⟩
    exact hprogram _ (Or.inr (Nat.le_refl _))
  · intro hword
    refine ⟨fun i hi ↦ hi.elim id fun hle ↦ hle.trans_lt hword, fun i hi ↦ hi.elim id fun hle ↦ ?_⟩
    exact hle.trans_lt (length_parseArgs_snd_lt command)

/-- A word of `FILE_NAME_SIZE` bytes: its NUL is stored behind `program`. -/
theorem parse_args_overruns :
    fileNameSize ∈ (parseArgsStores (Bytes.ofList (List.replicate 32 0x61))).1.map Prod.fst ∧
      ¬ ((∀ i ∈ (parseArgsStores (Bytes.ofList (List.replicate 32 0x61))).1.map Prod.fst,
          i < fileNameSize) ∧
        ∀ i ∈ (parseArgsStores (Bytes.ofList (List.replicate 32 0x61))).2.map Prod.fst,
          i < argsArrSize) := by
  have hmem : fileNameSize ∈
      (parseArgsStores (Bytes.ofList (List.replicate 32 0x61))).1.map Prod.fst := by decide
  exact ⟨hmem, fun h ↦ absurd (h.1 _ hmem) (Nat.lt_irrefl _)⟩

end Illinix
