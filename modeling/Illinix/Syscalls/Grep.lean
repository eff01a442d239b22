import Illinix.Base.Overlay
import Illinix.Lib.CString
import Mathlib.Data.List.Infix

/-!
# The search of `grep` in one file

`do_one_file` (`ece391grep.c`) reads a file into a buffer of 1024 bytes, after what is left there of
the last line, and searches the lines in it.  A line that is not complete yet is moved down to the
start of the buffer.  Whether it is complete is decided by the byte behind the line: where the bytes
that were read end before a newline, this is a byte that was not read.

The calls to the system are parameters.  `read pos n` is a call that asks for `n` bytes, after those
before have delivered `pos`.
-/

namespace Illinix

open Base

/-- What the system calls return; `none` is the `-1` of `ece391_read`. -/
structure GrepSys where
  opened : Int
  read : Nat → Nat → Option (List UInt8)
  closed : Int

/-- `data` and `last`, and what was written to the terminal. -/
structure Grep where
  data : Bytes
  last : Nat
  out : List UInt8

/-! ## The functions of `ece391support.c` -/

def ece391StrncmpFrom (s₁ s₂ : Bytes) : Nat → Nat → Int
  | 0, _ => 0
  | n + 1, i =>
      if s₁ i = s₂ i then if s₁ i = 0 ∨ n = 0 then 0 else ece391StrncmpFrom s₁ s₂ n (i + 1)
      else (s₁ i).toNat - (s₂ i).toNat

/-- `ece391_strncmp`. -/
def ece391Strncmp (s₁ s₂ : Bytes) (n : Nat) : Int := ece391StrncmpFrom s₁ s₂ n 0

def ece391StrcpyFrom : Nat → Nat → Nat → Bytes → Bytes
  | 0, _, _, m => m
  | fuel + 1, dst, src, m =>
      let m' := Function.update m dst (m src)
      if m src ≠ 0 then ece391StrcpyFrom fuel (dst + 1) (src + 1) m' else m'

/-- `ece391_strcpy`, within one memory. -/
def ece391Strcpy (dst src : Nat) (m : Bytes) : Bytes := ece391StrcpyFrom (2 ^ 32) dst src m

namespace Grep

/-- `BUFSIZE`. -/
def bufSize : Nat := 1024

/-- `'\n'`. -/
def newline : UInt8 := 0x0a

/-- `ece391_fdputs (1, s)`. -/
def fdputs (s : Bytes) (g : Grep) : Grep := { g with out := g.out ++ cstring s }

/-! ## `do_one_file` -/

section DoOneFile

variable (sys : GrepSys) (s fname : Bytes)

/-- The loop for `line_end`, which is `rest` bytes before `last`. -/
def lineEnd (data : Bytes) : Nat → Nat → Nat
  | 0, line_end => line_end
  | rest + 1, line_end =>
      if data line_end ≠ newline then lineEnd data rest (line_end + 1) else line_end

/-- The loop for `check`, which is `rest` bytes before `line_end`: whether a match is found.  `s`
points to `char`, which is signed. -/
def search (sLen : Nat) (data : Bytes) : Nat → Nat → Bool
  | 0, _ => false
  | rest + 1, check =>
      if charVal (s 0) = (data check).toNat ∧ ece391Strncmp (data.at check) s sLen = 0 then true
      else search sLen data rest (check + 1)

/-- The body of the inner loop for a line that is complete. -/
def searchLine (sLen line_start line_end : Nat) (g : Grep) : Grep :=
  let g := { g with data := Function.update g.data line_end 0 }
  if search s sLen g.data (line_end - line_start) line_start then
    (((g.fdputs fname).fdputs (.ofList [0x3a])).fdputs (g.data.at line_start)).fdputs
      (.ofList [newline])
  else g

/-- The inner loop. -/
def lines (sLen cnt : Nat) : Nat → Nat → Grep → Option Grep
  | 0, _, _ => none
  | fuel + 1, line_start, g =>
      let line_end := lineEnd g.data (g.last - line_start) line_start
      if g.data line_end ≠ newline ∧ cnt ≠ 0 ∧ line_start ≠ 0 then
        some { g with
          data := ece391Strcpy 0 line_start (Function.update g.data line_end 0)
          last := g.last - line_start }
      else
        let g := searchLine s fname sLen line_start line_end g
        let line_start := line_end + 1
        if line_start ≥ g.last then some { g with last := 0 }
        else lines sLen cnt fuel line_start g

/-- `ece391_read` has put bytes behind those in use. -/
def received (bytes : List UInt8) (g : Grep) : Grep :=
  { g with data := applyLog g.data (logAt g.last bytes), last := g.last + bytes.length }

/-- What is behind the outer loop. -/
def finish (g : Grep) : Int × List UInt8 :=
  if sys.closed = -1 then
    (-1, (g.fdputs (.ofList "file close failed\n".toUTF8.toList)).out)
  else (0, g.out)

/-- The outer loop, when `pos` bytes were read. -/
def readLoop (sLen : Nat) : Nat → Nat → Grep → Option (Int × List UInt8)
  | 0, _, _ => none
  | fuel + 1, pos, g =>
      match sys.read pos (bufSize - g.last) with
      | none => some (-1, (g.fdputs (.ofList "file read failed\n".toUTF8.toList)).out)
      | some bytes =>
          let cnt := bytes.length
          (lines s fname sLen cnt (g.last + cnt + 1) 0 (received bytes g)).bind fun g ↦
            if cnt = 0 then some (finish sys g) else readLoop sLen fuel (pos + cnt) g

/-- `do_one_file`; `data` is what the buffer holds at first. -/
def doOneFile (data : Bytes) (fuel : Nat) : Option (Int × List UInt8) :=
  let g : Grep := ⟨data, 0, []⟩
  if sys.opened = -1 then
    some (-1, (g.fdputs (.ofList "file open failed\n".toUTF8.toList)).out)
  else readLoop sys s fname (strlen s) fuel 0 g

end DoOneFile

end Grep

/-! ## What the functions compute -/

/-- The bytes of a list are in memory, with anything behind them. -/
def Bytes.Reads (s : Bytes) (l : List UInt8) : Prop := ∀ j, j < l.length → s j = l.getD j 0

theorem Bytes.at_at (s : Bytes) (k i : Nat) : (s.at k).at i = s.at (k + i) :=
  funext fun j ↦ congrArg s (Nat.add_assoc k i j).symm

theorem Bytes.Reads.left {s : Bytes} {l l' : List UInt8} (h : s.Reads (l ++ l')) : s.Reads l := by
  intro j hj
  rw [h j (by rw [List.length_append]; omega), List.getD_append _ _ _ _ hj]

theorem Bytes.Reads.right {s : Bytes} {l l' : List UInt8} (h : s.Reads (l ++ l')) :
    (s.at l.length).Reads l' := by
  intro j hj
  rw [Bytes.at, h _ (by rw [List.length_append]; omega), List.getD_append_right _ _ _ _ (by omega),
    Nat.add_sub_cancel_left]

theorem Bytes.Reads.head {s : Bytes} {l : List UInt8} {x : UInt8} (h : s.Reads (x :: l)) :
    s 0 = x := h 0 (Nat.succ_pos _)

theorem Bytes.Reads.tail {s : Bytes} {l : List UInt8} {x : UInt8} (h : s.Reads (x :: l)) :
    (s.at 1).Reads l := h.right (l := [x])

/-- A NUL that is stored behind the bytes. -/
theorem Bytes.Reads.holds {s : Bytes} {l : List UInt8} (h : s.Reads l) (hne : ∀ x ∈ l, x ≠ 0)
    (hend : s l.length = 0) : s.Holds l := by
  refine ⟨hne, fun j hj ↦ ?_⟩
  rcases Nat.lt_or_eq_of_le hj with hlt | rfl
  · exact h j hlt
  · rw [hend, List.getD_eq_default _ _ (Nat.le_refl _)]

theorem Bytes.Reads.holds_update {m : Bytes} {k : Nat} {l : List UInt8} (h : (m.at k).Reads l)
    (hne : ∀ x ∈ l, x ≠ 0) : (Bytes.at (Function.update m (k + l.length) 0) k).Holds l := by
  refine Bytes.Reads.holds (fun j hj ↦ ?_) hne ?_
  · rw [Bytes.at, Function.update_of_ne (by omega)]
    exact h j hj
  · rw [Bytes.at, Function.update_self]

theorem Bytes.Holds.reads {s : Bytes} {l : List UInt8} (h : s.Holds l) : s.Reads l := fun j hj ↦
  h.2 j hj.le

theorem Bytes.Holds.tail {s : Bytes} {l : List UInt8} {x : UInt8} (h : s.Holds (x :: l)) :
    (s.at 1).Holds l := by
  refine ⟨fun y hy ↦ h.1 y (List.mem_cons_of_mem x hy), fun j hj ↦ ?_⟩
  rw [Bytes.at, Nat.add_comm]
  exact h.2 (j + 1) (Nat.succ_le_succ hj)

/-- `ece391_strncmp` looks for the second string at the start of the first. -/
theorem ece391StrncmpFrom_eq_zero_iff {s₁ s₂ : Bytes} {l pat : List UInt8} {i : Nat}
    (h₁ : (s₁.at i).Holds l) (h₂ : (s₂.at i).Holds pat) :
    ece391StrncmpFrom s₁ s₂ pat.length i = 0 ↔ pat <+: l := by
  induction pat generalizing l i with
  | nil => exact iff_of_true rfl List.nil_prefix
  | cons x pat ih =>
      have hx : s₂ i = x := h₂.reads.head
      have hx0 : x ≠ 0 := h₂.1 x List.mem_cons_self
      rw [List.length_cons, ece391StrncmpFrom, hx]
      cases l with
      | nil =>
          have hend : s₁ i = 0 := h₁.2 0 (Nat.le_refl 0)
          rw [hend, if_neg hx0.symm]
          refine iff_of_false (fun hsub ↦ hx0 ?_) fun hpre ↦ ?_
          · exact UInt8.toNat_inj.mp (by rw [UInt8.toNat_zero] at hsub ⊢; omega)
          · exact absurd (List.prefix_nil.mp hpre) (List.cons_ne_nil x pat)
      | cons y l =>
          have hy : s₁ i = y := h₁.reads.head
          rw [hy, List.cons_prefix_cons]
          by_cases hyx : y = x
          · subst hyx
            have h₁' := h₁.tail
            have h₂' := h₂.tail
            rw [Bytes.at_at] at h₁' h₂'
            have hrest := ih h₁' h₂'
            rw [if_pos rfl, ← hrest, and_iff_right rfl]
            split
            · rename_i hstop
              have hlast : pat.length = 0 := hstop.resolve_left hx0
              rw [hlast, ece391StrncmpFrom]
            · exact Iff.rfl
          · rw [if_neg hyx]
            refine iff_of_false (fun hsub ↦ hyx (UInt8.toNat_inj.mp (by omega))) fun hpre ↦ ?_
            exact hyx hpre.1.symm

/-- `ece391_strcpy` to a lower address copies the string and its NUL. -/
theorem ece391StrcpyFrom_eq {m : Bytes} {l : List UInt8} {fuel dst src : Nat}
    (h : (m.at src).Holds l) (hfuel : l.length < fuel) (hle : dst ≤ src) :
    ece391StrcpyFrom fuel dst src m = copied m dst src (l.length + 1) := by
  induction l generalizing m fuel dst src with
  | nil =>
      obtain ⟨fuel, rfl⟩ := Nat.exists_eq_add_one_of_ne_zero (Nat.ne_zero_of_lt hfuel)
      have hend : m src = 0 := h.2 0 (Nat.le_refl 0)
      rw [ece391StrcpyFrom, if_neg (not_not.mpr hend)]
      exact (copied_one m dst src).symm
  | cons x l ih =>
      obtain ⟨fuel, rfl⟩ := Nat.exists_eq_add_one_of_ne_zero (Nat.ne_zero_of_lt hfuel)
      have hx : m src = x := h.reads.head
      have hstep : Function.update m dst (m src) = copied m dst src 1 := (copied_one m dst src).symm
      have hrest : (Bytes.at (copied m dst src 1) (src + 1)).Holds l := by
        refine ⟨fun y hy ↦ h.1 y (List.mem_cons_of_mem x hy), fun j hj ↦ ?_⟩
        rw [Bytes.at, copied_of_notMem m (by omega), ← h.tail.2 j hj, Bytes.at_at]
        rfl
      have hcopy : ece391StrcpyFrom fuel (dst + 1) (src + 1) (copied m dst src 1) = _ :=
        ih hrest (Nat.lt_of_succ_lt_succ hfuel) (Nat.succ_le_succ hle)
      rw [ece391StrcpyFrom, if_pos (by rw [hx]; exact h.1 x List.mem_cons_self), hstep, hcopy,
        copied_up m (.inl hle), List.length_cons, Nat.add_comm 1]

namespace Grep

variable {s : Bytes} {pat : List UInt8}

theorem lineEnd_eq {data : Bytes} {k : Nat} {l : List UInt8} (h : (data.at k).Reads l) :
    lineEnd data l.length k = k + (l.takeWhile (· ≠ newline)).length := by
  induction l generalizing k with
  | nil => rfl
  | cons x l ih =>
      have hx : data k = x := h.head
      have hrest := ih (k := k + 1) (by rw [← Bytes.at_at]; exact h.tail)
      rw [List.length_cons, lineEnd, hx]
      by_cases hne : x ≠ newline
      · rw [if_pos hne, hrest, List.takeWhile_cons, if_pos (decide_eq_true hne), List.length_cons,
          Nat.add_right_comm, Nat.add_assoc]
      · rw [if_neg hne, List.takeWhile_cons, if_neg fun htrue ↦ hne (of_decide_eq_true htrue)]
        rfl

/-- A `char` is the byte, unless it is negative. -/
theorem charVal_eq_toNat_iff (x y : UInt8) : charVal x = y.toNat ↔ x < 0x80 ∧ x = y := by
  have hval : charVal x = if 2 * x.toNat < 2 ^ 8 then (x.toNat : Int) else x.toNat - 2 ^ 8 :=
    BitVec.toInt_eq_toNat_cond x.toBitVec
  have hx := x.toNat_lt
  have hy := y.toNat_lt
  have hlow : x < 0x80 ↔ x.toNat < 128 := UInt8.lt_iff_toNat_lt
  rw [hval, hlow, ← UInt8.toNat_inj]
  omega

/-- The lines that the search finds. -/
def Hits (pat l : List UInt8) : Prop := pat.getD 0 0 < 0x80 ∧ pat <:+: l

instance : DecidablePred (Hits pat) := fun _ ↦ inferInstanceAs (Decidable (_ ∧ _))

theorem search_eq_true_iff (hs : s.Holds pat) (hpat : pat ≠ []) {data : Bytes} {k : Nat}
    {l : List UInt8} (h : (data.at k).Holds l) :
    search s pat.length data l.length k = true ↔ Hits pat l := by
  induction l generalizing k with
  | nil =>
      refine iff_of_false (fun hf ↦ nomatch hf) fun hhits ↦ ?_
      exact hpat (List.infix_nil.mp hhits.2)
  | cons x l ih =>
      have hx : data k = x := h.reads.head
      have hrest := ih (k := k + 1) (by rw [← Bytes.at_at]; exact h.tail)
      have hprefix : ece391Strncmp (data.at k) s pat.length = 0 ↔ pat <+: x :: l :=
        ece391StrncmpFrom_eq_zero_iff (by rw [Bytes.at_zero]; exact h)
          (by rw [Bytes.at_zero]; exact hs)
      have hfirst : s 0 = pat.getD 0 0 := hs.2 0 (Nat.zero_le _)
      have hfound : (charVal (s 0) = (data k).toNat ∧ ece391Strncmp (data.at k) s pat.length = 0) ↔
          pat.getD 0 0 < 0x80 ∧ pat <+: x :: l := by
        rw [hfirst, hx, hprefix, charVal_eq_toNat_iff, and_assoc]
        refine and_congr_right fun _ ↦ and_iff_right_of_imp fun hpre ↦ ?_
        -- a prefix starts with the same byte
        obtain ⟨y, pat, rfl⟩ := List.exists_cons_of_ne_nil hpat
        exact (List.cons_prefix_cons.mp hpre).1
      rw [List.length_cons, search, Hits, List.infix_cons_iff, and_or_left, ← hfound]
      split
      · rename_i hmatch
        exact iff_of_true rfl (.inl hmatch)
      · rename_i hnot
        rw [or_iff_right hnot]
        exact hrest

end Grep

end Illinix
