import Illinix.Lib.Itoa

/-!
# `printf`

`printf` goes through its format byte by byte, and every byte that it reads is a case of one of two
switches: in the text, or at the label `format_char_switch` behind a `%`.  A `#` goes back to the
label.  `Printf.step` is one such byte, with the characters that it passes to `putc`, the argument
that it takes, and the place in the format that was read.

The specification is a grammar: a format is a sequence of pieces, each a literal character or a
specifier, and `Piece.render` is what the comment above `printf` promises for a piece.  The inner
switch has no case for the NUL.  A format that ends inside a specifier is not at its end for
`printf`, which goes on behind it: `printf_renders_iff`.
-/

namespace Illinix

open Base

/-! ## The function -/

/-- The switch that the next byte of the format goes to. -/
inductive Scan
  | text
  | spec (alternate : Bool)
deriving DecidableEq, Repr

/-- What a call finds: the words behind `format` on the stack, the memory that they may point to,
and what the stack held in the place of each `conv_buf`. -/
structure PrintfEnv where
  arg : Nat → BitVec 32
  mem : Bytes
  junk : Nat → Bytes

/-- A call of `printf`: the switch, `buf`, `esp`, the characters passed to `putc`, and the places in
the format that were read. -/
structure Printf where
  scan : Scan
  buf : Nat
  esp : Nat
  out : List UInt8
  reads : List Nat

/-- The characters that `puts` passes to `putc`. -/
def putsChars (str : Bytes) : List UInt8 := cstr str (2 ^ 32)

/-- The loop that writes zeros from `conv_buf[i]` on, `n` rounds before its end. -/
def zeroFill : Nat → Nat → Bytes → Bytes
  | 0, _, m => m
  | n + 1, i, m => zeroFill n (i + 1) (Function.update m i 0x30)

/-- The case for `%#x`. -/
def alternateHex (value : Nat) (convBuf : Bytes) : List UInt8 :=
  let convBuf := itoa value 8 16 convBuf
  let startingIndex := strlen (convBuf.at 8)
  putsChars ((zeroFill (8 - startingIndex) startingIndex convBuf).at startingIndex)

/-- The case for `%d`. -/
def signedDecimal (value : BitVec 32) (convBuf : Bytes) : List UInt8 :=
  if value.toInt < 0 then putsChars (itoa (-value).toNat 1 10 (Function.update convBuf 0 0x2d))
  else putsChars (itoa value.toNat 0 10 convBuf)

/-- The switch over the conversion specifiers, without the case for `#`: the characters passed to
`putc`, and `esp`. -/
def convert (env : PrintfEnv) (alternate : Bool) (c : UInt8) (buf esp : Nat) : List UInt8 × Nat :=
  if c = 0x25 then ([0x25], esp)
  else if c = 0x78 then
    (if alternate then alternateHex (env.arg esp).toNat (env.junk buf)
      else putsChars (itoa (env.arg esp).toNat 0 16 (env.junk buf)), esp + 1)
  else if c = 0x75 then (putsChars (itoa (env.arg esp).toNat 0 10 (env.junk buf)), esp + 1)
  else if c = 0x64 then (signedDecimal (env.arg esp) (env.junk buf), esp + 1)
  else if c = 0x63 then ([UInt8.ofNat (env.arg esp).toNat], esp + 1)
  else if c = 0x73 then (putsChars (env.mem.at (env.arg esp).toNat), esp + 1)
  else ([], esp)

namespace Printf

variable (env : PrintfEnv) (format : Bytes)

/-- One byte of the format; there is no step from its end. -/
def step (p : Printf) : Option Printf :=
  let c := format p.buf
  let next := { p with buf := p.buf + 1, reads := p.reads ++ [p.buf] }
  match p.scan with
  | .text =>
      if c = 0 then none
      else if c = 0x25 then some { next with scan := .spec false }
      else some { next with out := p.out ++ [c] }
  | .spec alternate =>
      if c = 0x23 then some { next with scan := .spec true }
      else
        let conv := convert env alternate c p.buf p.esp
        some { next with scan := .text, out := p.out ++ conv.1, esp := conv.2 }

/-- The loop, for at most `fuel` bytes; the byte that ends it is read too. -/
def run : Nat → Printf → Option Printf
  | 0, _ => none
  | fuel + 1, p =>
      match p.step env format with
      | none => some { p with reads := p.reads ++ [p.buf] }
      | some p' => run fuel p'

end Printf

/-- The call before the loop. -/
def Printf.start : Printf := ⟨.text, 0, 0, [], []⟩

/-- `printf`, unless it reads more than `fuel` bytes of the format. -/
def printf (env : PrintfEnv) (format : Bytes) (fuel : Nat) : Option Printf :=
  Printf.run env format fuel .start

/-! ## The grammar -/

/-- A literal character, or a `%` with some `#`s and a character. -/
inductive Piece
  | lit (c : UInt8)
  | spec (hashes : Nat) (c : UInt8)
deriving DecidableEq, Repr

namespace Piece

/-- The text of a piece. -/
def bytes : Piece → List UInt8
  | lit c => [c]
  | spec hashes c => 0x25 :: (List.replicate hashes 0x23 ++ [c])

/-- A literal is no `%`, and what follows the `#`s is no `#`. -/
def Ok : Piece → Prop
  | lit c => c ≠ 0x25
  | spec _ c => c ≠ 0x23

/-- The number of arguments that a piece consumes. -/
def nargs : Piece → Nat
  | lit _ => 0
  | spec _ c => if c ∈ [0x78, 0x75, 0x64, 0x63, 0x73] then 1 else 0

end Piece

/-- Eight hexadecimal digits. -/
def hex8 (value : Nat) : List UInt8 := (Nat.digitsAppend 16 8 value).reverse.map lookup

/-- The numeral of a signed number. -/
def signedNumeral (value : Int) : List UInt8 :=
  if value < 0 then 0x2d :: numeral 10 value.natAbs else numeral 10 value.natAbs

/-- What a piece prints, with the word `arg` for its argument. -/
def Piece.render (mem : Bytes) (arg : BitVec 32) : Piece → List UInt8
  | lit c => [c]
  | spec hashes c =>
      if c = 0x25 then [0x25]
      else if c = 0x78 then if hashes = 0 then numeral 16 arg.toNat else hex8 arg.toNat
      else if c = 0x75 then numeral 10 arg.toNat
      else if c = 0x64 then signedNumeral arg.toInt
      else if c = 0x63 then [UInt8.ofNat arg.toNat]
      else if c = 0x73 then cstr (mem.at arg.toNat) (2 ^ 32)
      else []

/-- What pieces print, with the arguments from the one with number `esp` on. -/
def renderFrom (env : PrintfEnv) : Nat → List Piece → List UInt8
  | _, [] => []
  | esp, p :: ps => p.render env.mem (env.arg esp) ++ renderFrom env (esp + p.nargs) ps

/-- The number of arguments that pieces consume. -/
def totalArgs (ps : List Piece) : Nat := (ps.map Piece.nargs).sum

/-- The pieces of a text; behind a `%`, the first argument counts the `#`s so far.  An unfinished
specifier at the end is no piece. -/
def piecesFrom : Option Nat → List UInt8 → List Piece
  | _, [] => []
  | none, c :: l => if c = 0x25 then piecesFrom (some 0) l else .lit c :: piecesFrom none l
  | some hashes, c :: l =>
      if c = 0x23 then piecesFrom (some (hashes + 1)) l else .spec hashes c :: piecesFrom none l

/-- Whether a text ends behind a `%`, and with how many `#`s. -/
def endsIn : Option Nat → List UInt8 → Option Nat
  | m, [] => m
  | none, c :: l => if c = 0x25 then endsIn (some 0) l else endsIn none l
  | some hashes, c :: l => if c = 0x23 then endsIn (some (hashes + 1)) l else endsIn none l

/-- The format `fmt` at `format` is rendered: the call ends, the characters are those of the pieces,
each specifier consumes its argument, and the NUL is the last byte of the format that is read. -/
def Renders (env : PrintfEnv) (format : Bytes) (fmt : List UInt8) : Prop :=
  ∃ fuel p, printf env format fuel = some p ∧ p.out = renderFrom env 0 (piecesFrom none fmt) ∧
    p.esp = totalArgs (piecesFrom none fmt) ∧ ∀ i ∈ p.reads, i ≤ fmt.length

/-! ## Conversions -/

theorem putsChars_eq {str : Bytes} {l : List UInt8} (h : str.Holds l) (hl : l.length < 2 ^ 32) :
    putsChars str = l := h.cstr_eq hl

theorem length_numeral_le {radix value k : Nat} (hradix : 2 ≤ radix) (hk : 1 ≤ k)
    (hvalue : value < radix ^ k) : (numeral radix value).length ≤ k := by
  rw [numeral]
  split
  · exact hk
  · rw [List.length_map, List.length_reverse]
    exact (Nat.digits_length_le_iff hradix value).mpr hvalue

/-- A numeral of a 32-bit number is far from the bound of `puts`. -/
theorem length_numeral_lt {radix : Nat} (hradix : 2 ≤ radix) (value : BitVec 32) :
    (numeral radix value.toNat).length < 2 ^ 31 := by
  have hvalue : value.toNat < radix ^ 32 := value.isLt.trans_le (Nat.pow_le_pow_left hradix 32)
  exact (length_numeral_le hradix (by decide) hvalue).trans_lt (by decide)

/-- A number at the start of the buffer. -/
theorem putsChars_itoa {radix : Nat} (hlo : 2 ≤ radix) (hhi : radix ≤ 36) (value : BitVec 32)
    (convBuf : Bytes) : putsChars (itoa value.toNat 0 radix convBuf) = numeral radix value.toNat := by
  obtain ⟨hholds, -⟩ := itoa_holds hlo hhi value.isLt 0 convBuf
  rw [Bytes.at_zero] at hholds
  exact putsChars_eq hholds ((length_numeral_lt hlo value).trans (by decide))

theorem zeroFill_eq (n i : Nat) (m : Bytes) :
    zeroFill n i m = applyLog m (logAt i (List.replicate n 0x30)) := by
  induction n generalizing i m with
  | zero => rfl
  | succ n ih => rw [zeroFill, ih, List.replicate_succ, logAt, applyLog_cons]

/-- The digits with the zeros in front of them. -/
theorem replicate_append_numeral (value : Nat) :
    List.replicate (8 - (numeral 16 value).length) 0x30 ++ numeral 16 value = hex8 value := by
  have hzero : lookup 0 = 0x30 := rfl
  rw [hex8, Nat.digitsAppend, List.reverse_append, List.map_append, List.reverse_replicate,
    List.map_replicate, hzero, numeral]
  split
  · rename_i hvalue
    rw [hvalue]
    simp [List.replicate_succ]
  · rw [List.length_map, List.length_reverse]

theorem alternateHex_eq (value : BitVec 32) (convBuf : Bytes) :
    alternateHex value.toNat convBuf = hex8 value.toNat := by
  obtain ⟨hholds, -⟩ := itoa_holds (show 2 ≤ 16 by decide) (by decide) value.isLt 8 convBuf
  have hlen : (numeral 16 value.toNat).length ≤ 8 :=
    length_numeral_le (by decide) (by decide) value.isLt
  simp only [alternateHex, hholds.strlen_eq (hlen.trans_lt (by decide))]
  generalize hn : (numeral 16 value.toNat).length = n at hlen
  rw [← replicate_append_numeral value.toNat, hn, zeroFill_eq]
  apply putsChars_eq
  · apply Bytes.Holds.append
    · intro x hx
      rw [List.eq_of_mem_replicate hx]
      decide
    · intro j hj
      rw [applyLog_logAt_add, List.getD_eq_getElem _ _ hj, List.getD_eq_getElem _ _ hj]
    · -- the zeros end where the number begins
      have hend : n + (List.replicate (8 - n) (0x30 : UInt8)).length = 8 := by
        rw [List.length_replicate]
        omega
      have hkeep : Bytes.at (applyLog (itoa value.toNat 8 16 convBuf)
          (logAt n (List.replicate (8 - n) 0x30))) 8 = (itoa value.toNat 8 16 convBuf).at 8 := by
        funext i
        have hidx : 8 + i = n + (8 - n + i) := by omega
        rw [Bytes.at, Bytes.at, hidx, applyLog_logAt_add, List.getD_eq_default]
        rw [List.length_replicate]
        omega
      rw [hend, hkeep]
      exact hholds
  · rw [List.length_append, List.length_replicate, hn]
    omega

/-- `-value` wraps for the least number, and is right as an unsigned one. -/
theorem toNat_neg_of_neg {value : BitVec 32} (h : value.toInt < 0) :
    (-value).toNat = value.toInt.natAbs := by
  have hint := BitVec.toInt_eq_toNat_cond value
  have hlt := value.isLt
  rw [BitVec.toNat_neg]
  split at hint <;> omega

theorem signedDecimal_eq (value : BitVec 32) (convBuf : Bytes) :
    signedDecimal value convBuf = signedNumeral value.toInt := by
  rw [signedDecimal, signedNumeral]
  split
  · rename_i hneg
    obtain ⟨hholds, hbelow⟩ := itoa_holds (show 2 ≤ 10 by decide) (by decide) (-value).isLt 1
      (Function.update convBuf 0 0x2d)
    have hminus : itoa (-value).toNat 1 10 (Function.update convBuf 0 0x2d) 0 = 0x2d := by
      rw [hbelow 0 Nat.one_pos, Function.update_self]
    have hall : (Bytes.at (itoa (-value).toNat 1 10 (Function.update convBuf 0 0x2d)) 0).Holds
        ([0x2d] ++ numeral 10 (-value).toNat) := by
      refine Bytes.Holds.append (by simp) (fun j hj ↦ ?_) hholds
      obtain rfl : j = 0 := Nat.lt_one_iff.mp hj
      exact hminus
    rw [Bytes.at_zero] at hall
    rw [← toNat_neg_of_neg hneg]
    have hlen := length_numeral_lt (show 2 ≤ 10 by decide) (-value)
    exact putsChars_eq hall (Nat.succ_lt_succ hlen |>.trans_le (by decide))
  · rename_i hpos
    have habs : value.toInt.natAbs = value.toNat := by
      have hint := BitVec.toInt_eq_toNat_cond value
      have hlt := value.isLt
      split at hint <;> omega
    rw [habs]
    exact putsChars_itoa (by decide) (by decide) value convBuf

/-- **Every conversion prints what the grammar says**, whatever its buffer held before. -/
theorem convert_eq (env : PrintfEnv) (hashes : Nat) (c : UInt8) (buf esp : Nat) :
    convert env (hashes != 0) c buf esp =
      ((Piece.spec hashes c).render env.mem (env.arg esp), esp + (Piece.spec hashes c).nargs) := by
  by_cases hpercent : c = 0x25
  · subst hpercent
    rfl
  by_cases hx : c = 0x78
  · subst hx
    show (if (hashes != 0) = true then alternateHex _ _ else _, esp + 1) =
      (if hashes = 0 then _ else _, esp + 1)
    rcases hashes with - | hashes
    · rw [if_pos rfl, ← putsChars_itoa (by decide) (by decide) _ (env.junk buf)]
      rfl
    · rw [if_neg (Nat.succ_ne_zero hashes), ← alternateHex_eq _ (env.junk buf)]
      rfl
  by_cases hu : c = 0x75
  · subst hu
    exact congrArg (·, esp + 1) (putsChars_itoa (by decide) (by decide) _ _)
  by_cases hd : c = 0x64
  · subst hd
    exact congrArg (·, esp + 1) (signedDecimal_eq _ _)
  by_cases hc : c = 0x63
  · subst hc
    rfl
  by_cases hs : c = 0x73
  · subst hs
    rfl
  have hother : c ∉ [0x78, 0x75, 0x64, 0x63, 0x73] := by
    simp only [List.mem_cons, List.not_mem_nil, or_false, not_or]
    exact ⟨hx, hu, hd, hc, hs⟩
  simp only [convert, Piece.render, Piece.nargs, if_neg hpercent, if_neg hx, if_neg hu, if_neg hd,
    if_neg hc, if_neg hs, if_neg hother]
  rfl

/-! ## Pieces of a text -/

theorem endsIn_append (m : Option Nat) (l l' : List UInt8) :
    endsIn m (l ++ l') = endsIn (endsIn m l) l' := by
  fun_induction endsIn m l with
  | case1 m => rfl
  | case2 l ih => exact ih
  | case3 c l hc ih => rw [List.cons_append, endsIn, if_neg hc, ih]
  | case4 hashes l ih => exact ih
  | case5 hashes c l hc ih => rw [List.cons_append, endsIn, if_neg hc, ih]

/-- The pieces of a text, from those of its first byte. -/
theorem piecesFrom_cons (m : Option Nat) (c : UInt8) (l : List UInt8) :
    piecesFrom m (c :: l) = piecesFrom m [c] ++ piecesFrom (endsIn m [c]) l := by
  rcases m with - | hashes
  · simp only [piecesFrom, endsIn]
    split <;> rfl
  · simp only [piecesFrom, endsIn]
    split <;> rfl

/-- The text of an unfinished specifier. -/
def openText : Option Nat → List UInt8
  | none => []
  | some hashes => 0x25 :: List.replicate hashes 0x23

/-- The pieces spell the text, but for an unfinished specifier at its end. -/
theorem piecesFrom_spells (m : Option Nat) (l : List UInt8) :
    openText m ++ l = (piecesFrom m l).flatMap Piece.bytes ++ openText (endsIn m l) := by
  fun_induction piecesFrom m l with
  | case1 m => rw [List.append_nil]; rfl
  | case2 l ih => exact ih
  | case3 c l hc ih =>
      rw [endsIn, if_neg hc, List.flatMap_cons, List.append_assoc, ← ih]
      rfl
  | case4 hashes l ih =>
      rw [endsIn, if_pos rfl, ← ih, openText, openText, List.replicate_succ', List.cons_append,
        List.cons_append, List.append_assoc]
      rfl
  | case5 hashes c l hc ih =>
      rw [endsIn, if_neg hc, List.flatMap_cons, List.append_assoc, ← ih, openText, openText,
        Piece.bytes, List.cons_append, List.cons_append, List.append_assoc]
      rfl

theorem ok_of_mem_piecesFrom {m : Option Nat} {l : List UInt8} {p : Piece}
    (h : p ∈ piecesFrom m l) : p.Ok := by
  fun_induction piecesFrom m l with
  | case1 m => cases h
  | case2 l ih => exact ih h
  | case3 c l hc ih =>
      rcases List.mem_cons.mp h with rfl | h
      · exact hc
      · exact ih h
  | case4 hashes l ih => exact ih h
  | case5 hashes c l hc ih =>
      rcases List.mem_cons.mp h with rfl | h
      · exact hc
      · exact ih h

theorem endsIn_hashes (k hashes : Nat) :
    endsIn (some k) (List.replicate hashes 0x23) = some (k + hashes) := by
  induction hashes generalizing k with
  | zero => rfl
  | succ hashes ih =>
      rw [List.replicate_succ, endsIn, if_pos rfl, ih, Nat.add_assoc, Nat.add_comm 1]

/-- A piece ends outside of a specifier. -/
theorem endsIn_bytes {p : Piece} (h : p.Ok) : endsIn none p.bytes = none := by
  rcases p with c | ⟨hashes, c⟩
  · exact if_neg h
  · rw [Piece.bytes, endsIn, if_pos rfl, endsIn_append, endsIn_hashes]
    exact if_neg h

/-- **The formats of the grammar are those that do not end inside a specifier.** -/
theorem endsIn_eq_none_iff (fmt : List UInt8) :
    endsIn none fmt = none ↔ ∃ ps : List Piece, (∀ p ∈ ps, p.Ok) ∧ fmt = ps.flatMap Piece.bytes := by
  constructor
  · intro hend
    have hspells := piecesFrom_spells none fmt
    rw [hend] at hspells
    refine ⟨piecesFrom none fmt, fun p hp ↦ ok_of_mem_piecesFrom hp, ?_⟩
    rwa [openText, List.nil_append, List.append_nil] at hspells
  · rintro ⟨ps, hok, rfl⟩
    induction ps with
    | nil => rfl
    | cons p ps ih =>
        rw [List.flatMap_cons, endsIn_append, endsIn_bytes (hok p List.mem_cons_self)]
        exact ih fun q hq ↦ hok q (List.mem_cons_of_mem p hq)

theorem renderFrom_append (env : PrintfEnv) (esp : Nat) (ps qs : List Piece) :
    renderFrom env esp (ps ++ qs) = renderFrom env esp ps ++ renderFrom env (esp + totalArgs ps) qs := by
  induction ps generalizing esp with
  | nil => rfl
  | cons p ps ih =>
      rw [List.cons_append, renderFrom, renderFrom, ih, List.append_assoc, totalArgs, totalArgs,
        List.map_cons, List.sum_cons, Nat.add_assoc]

theorem totalArgs_append (ps qs : List Piece) :
    totalArgs (ps ++ qs) = totalArgs ps + totalArgs qs := by
  rw [totalArgs, List.map_append, List.sum_append]
  rfl

/-! ## The scanner follows the grammar -/

/-- The switch behind a text that ends as given. -/
def Scan.ofEnd : Option Nat → Scan
  | none => .text
  | some hashes => .spec (hashes != 0)

namespace Printf

variable {env : PrintfEnv} {format : Bytes}

/-- A call that has gone through `l`, from a place that is reached behind `m`. -/
def after (env : PrintfEnv) (p : Printf) (m : Option Nat) (l : List UInt8) : Printf where
  scan := .ofEnd (endsIn m l)
  buf := p.buf + l.length
  esp := p.esp + totalArgs (piecesFrom m l)
  out := p.out ++ renderFrom env p.esp (piecesFrom m l)
  reads := p.reads ++ List.range' p.buf l.length

theorem after_cons (p : Printf) (m : Option Nat) (c : UInt8) (l : List UInt8) :
    after env p m (c :: l) = after env (after env p m [c]) (endsIn m [c]) l := by
  have hend := endsIn_append m [c] l
  rw [List.singleton_append] at hend
  simp only [after, hend, piecesFrom_cons m c l, totalArgs_append, renderFrom_append,
    List.length_cons, List.range'_succ, List.append_assoc, Nat.add_assoc]
  simp [Nat.add_comm]

/-- **One byte.**  Only in the text does a NUL end the loop. -/
theorem step_eq {p : Printf} {m : Option Nat} (hscan : p.scan = .ofEnd m)
    (hc : m = none → format p.buf ≠ 0) :
    p.step env format = some (after env p m [format p.buf]) := by
  rcases m with - | hashes
  · simp only [step, hscan, Scan.ofEnd, if_neg (hc rfl)]
    by_cases hpercent : format p.buf = 0x25
    · simp [after, hpercent, piecesFrom, endsIn, renderFrom, totalArgs, Scan.ofEnd]
    · simp [after, hpercent, piecesFrom, endsIn, renderFrom, totalArgs, Scan.ofEnd, Piece.render,
        Piece.nargs]
  · simp only [step, hscan, Scan.ofEnd, convert_eq]
    by_cases hhash : format p.buf = 0x23
    · simp [after, hhash, piecesFrom, endsIn, renderFrom, totalArgs, Scan.ofEnd]
    · simp [after, hhash, piecesFrom, endsIn, renderFrom, totalArgs, Scan.ofEnd]

/-- At the end of the format there is no step. -/
theorem step_eq_none {p : Printf} (hscan : p.scan = .text) (hc : format p.buf = 0) :
    p.step env format = none := by
  simp only [step, hscan, if_pos hc]

/-- **A text of the format.**  The loop goes through all of it. -/
theorem run_format {l : List UInt8} {m : Option Nat} {p : Printf} (hscan : p.scan = .ofEnd m)
    (hne : ∀ x ∈ l, x ≠ 0) (hget : ∀ j, j < l.length → format (p.buf + j) = l.getD j 0)
    (fuel : Nat) :
    run env format (l.length + fuel) p = run env format fuel (after env p m l) := by
  induction l generalizing m p with
  | nil =>
      have hself : after env p m [] = p := by
        simp only [after, piecesFrom, endsIn, renderFrom, totalArgs, ← hscan]
        simp
      rw [hself, List.length_nil, Nat.zero_add]
  | cons c l ih =>
      have hfirst : format p.buf = c := hget 0 (Nat.succ_pos _)
      have hstep : p.step env format = _ := step_eq hscan fun _ ↦ hfirst ▸ hne c List.mem_cons_self
      rw [hfirst] at hstep
      rw [List.length_cons, Nat.add_right_comm, run, hstep, after_cons p m c l]
      refine ih (p := after env p m [c]) (m := endsIn m [c]) rfl
        (fun x hx ↦ hne x (List.mem_cons_of_mem c hx)) fun j hj ↦ ?_
      have hnext : format (p.buf + (j + 1)) = l.getD j 0 := hget (j + 1) (Nat.succ_lt_succ hj)
      rwa [← Nat.add_assoc, Nat.add_right_comm] at hnext

theorem step_reads {p p' : Printf} (h : p.step env format = some p') :
    p'.reads = p.reads ++ [p.buf] := by
  cases hscan : p.scan with
  | text =>
      simp only [step, hscan] at h
      split at h
      · cases h
      · split at h <;> cases h <;> rfl
  | spec alternate =>
      simp only [step, hscan] at h
      split at h <;> cases h <;> rfl

/-- A loop that ends has read the byte that it began with. -/
theorem buf_mem_reads {fuel : Nat} {p e : Printf} (h : run env format fuel p = some e) :
    p.buf ∈ e.reads := by
  have hmono : ∀ i ∈ p.reads ++ [p.buf], i ∈ e.reads := by
    induction fuel generalizing p with
    | zero => cases h
    | succ fuel ih =>
        intro i hi
        rw [run] at h
        cases hstep : p.step env format with
        | none =>
            rw [hstep] at h
            cases h
            exact hi
        | some p' =>
            rw [hstep] at h
            apply ih h
            rw [step_reads hstep]
            exact List.mem_append_left _ hi
  exact hmono _ (List.mem_append_right _ List.mem_cons_self)

/-- More fuel than the loop needs makes no difference. -/
theorem run_add {fuel : Nat} {p e : Printf} (h : run env format fuel p = some e) (k : Nat) :
    run env format (k + fuel) p = some e := by
  induction fuel generalizing p with
  | zero => cases h
  | succ fuel ih =>
      rw [run] at h
      rw [← Nat.add_assoc, run]
      cases hstep : p.step env format with
      | none =>
          rw [hstep] at h
          exact h
      | some p' =>
          rw [hstep] at h
          exact ih h

end Printf

section Formats

variable {env : PrintfEnv} {format : Bytes} {fmt : List UInt8}

/-- The loop goes through the whole format, and finds the NUL. -/
theorem printf_format (env : PrintfEnv) (h : format.Holds fmt) (fuel : Nat) :
    printf env format (fmt.length + fuel) =
        Printf.run env format fuel (Printf.after env .start none fmt) ∧
      format (Printf.after env .start none fmt).buf = 0 := by
  constructor
  · refine Printf.run_format rfl h.1 (fun j hj ↦ ?_) fuel
    show format (0 + j) = _
    rw [Nat.zero_add, h.2 j hj.le]
  · show format (0 + fmt.length) = 0
    rw [Nat.zero_add, h.2 _ (Nat.le_refl _), List.getD_eq_default _ _ (Nat.le_refl _)]

/-- A format of the grammar is gone through to its NUL and no further. -/
theorem renders_of_complete (h : format.Holds fmt) (hend : endsIn none fmt = none) :
    Renders env format fmt := by
  obtain ⟨hrun, hnul⟩ := printf_format env h 1
  have hscan : (Printf.after env .start none fmt).scan = .text :=
    congrArg Scan.ofEnd hend
  rw [Printf.run, Printf.step_eq_none hscan hnul] at hrun
  refine ⟨_, _, hrun, rfl, Nat.zero_add _, fun i hi ↦ ?_⟩
  rcases List.mem_append.mp hi with hi | hi
  · have hlt : 0 ≤ i ∧ i < 0 + fmt.length := List.mem_range'_1.mp hi
    omega
  · rw [List.mem_singleton.mp hi]
    exact (Nat.zero_add _).le

/-- Behind an unfinished specifier the NUL is an unknown one, and the loop goes on. -/
theorem not_renders_of_open (h : format.Holds fmt) {hashes : Nat}
    (hend : endsIn none fmt = some hashes) : ¬ Renders env format fmt := by
  rintro ⟨fuel, e, hprintf, -, -, hreads⟩
  obtain ⟨hrun, hnul⟩ := printf_format env h (1 + fuel)
  have hscan : (Printf.after env .start none fmt).scan = .ofEnd (some hashes) :=
    congrArg Scan.ofEnd hend
  have hmore := Printf.run_add hprintf (fmt.length + 1)
  rw [Nat.add_assoc] at hmore
  have hstep : Printf.step env format _ = _ := Printf.step_eq hscan (by simp)
  rw [show Printf.run env format _ .start = _ from hrun, Nat.add_comm 1, Printf.run, hstep] at hmore
  have hpast := hreads _ (Printf.buf_mem_reads hmore)
  have hbuf : 0 + fmt.length + 1 ≤ fmt.length := hpast
  omega

/-- **When `printf` renders its format and stops at its end.**  For every format, any arguments and
any memory it does if and only if the format is a sequence of literal characters and complete
specifiers, that is, does not end inside a specifier. -/
theorem printf_renders_iff (env : PrintfEnv) (format : Bytes) (fmt : List UInt8)
    (h : format.Holds fmt) :
    Renders env format fmt ↔
      ∃ ps : List Piece, (∀ p ∈ ps, p.Ok) ∧ fmt = ps.flatMap Piece.bytes := by
  rw [← endsIn_eq_none_iff]
  constructor
  · intro hrenders
    by_contra hend
    obtain ⟨hashes, hopen⟩ := Option.ne_none_iff_exists'.mp hend
    exact not_renders_of_open h hopen hrenders
  · intro hend
    exact renders_of_complete h hend

end Formats

/-- The format `a%d`. -/
theorem printf_renders_decimal :
    (Bytes.ofList [0x61, 0x25, 0x64]).Holds [0x61, 0x25, 0x64] ∧
      Renders ⟨fun _ ↦ 5, fun _ ↦ 0, fun _ _ ↦ 0⟩ (Bytes.ofList [0x61, 0x25, 0x64])
        [0x61, 0x25, 0x64] := by
  have hformat : (Bytes.ofList [0x61, 0x25, 0x64]).Holds [0x61, 0x25, 0x64] :=
    Bytes.holds_ofList (by simp)
  refine ⟨hformat, (printf_renders_iff _ _ _ hformat).mpr ⟨[.lit 0x61, .spec 0 0x64], ?_, rfl⟩⟩
  simp [Piece.Ok]

/-- The format `%` is not at its end for `printf`. -/
theorem printf_reads_past_end :
    ¬ Renders ⟨fun _ ↦ 0, fun _ ↦ 0, fun _ _ ↦ 0⟩ (Bytes.ofList [0x25]) [0x25] :=
  not_renders_of_open (Bytes.holds_ofList (by simp)) (show endsIn none [0x25] = some 0 from rfl)

end Illinix
