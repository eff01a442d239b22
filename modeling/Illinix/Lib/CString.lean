import Illinix.Base.Store
import Mathlib.Data.List.GetD
import Mathlib.Tactic.Common

/-!
# Byte strings of `lib.c`

A `char *` is read as the bytes from it on, `s : Nat → UInt8`.  `strlen` walks to
the first NUL; the source's loop has no bound, and `2 ^ 32` is where a 32-bit
pointer has seen every address there is.  (A memory without any NUL byte, on which
the source would loop for ever, gets that bound as its length.)

`cstr s n` is the string at `s`, cut after `n` bytes: what a fixed-size name field,
which need not be NUL-terminated, stands for.  `strncmp_eq_zero_iff_cstr` is the
fact the directory lookup rests on.
-/

namespace Illinix

/-- Memory from a pointer on. -/
abbrev Bytes := Nat → UInt8

/-- The memory from `s + k` on. -/
def Bytes.at (s : Bytes) (k : Nat) : Bytes := fun i ↦ s (k + i)

@[simp] theorem Bytes.at_zero (s : Bytes) : s.at 0 = s := funext fun i ↦ congrArg s (Nat.zero_add i)

/-- A NUL-terminated string as the memory it is stored in. -/
def Bytes.ofList (l : List UInt8) : Bytes := fun i ↦ l.getD i 0

/-! ## The functions of `lib.c` -/

def strlenFrom (s : Bytes) : Nat → Nat → Nat
  | 0, len => len
  | fuel + 1, len => if s len = 0 then len else strlenFrom s fuel (len + 1)

/-- `strlen`. -/
def strlen (s : Bytes) : Nat := strlenFrom s (2 ^ 32) 0

/-- A byte as the (signed) `char` that `strncmp` subtracts. -/
def charVal (b : UInt8) : Int := b.toInt8.toInt

def strncmpFrom (s₁ s₂ : Bytes) : Nat → Nat → Int
  | 0, _ => 0
  | n + 1, i =>
      if s₁ i ≠ s₂ i ∨ s₁ i = 0 then charVal (s₁ i) - charVal (s₂ i)
      else strncmpFrom s₁ s₂ n (i + 1)

/-- `strncmp`. -/
def strncmp (s₁ s₂ : Bytes) (n : Nat) : Int := strncmpFrom s₁ s₂ n 0

def strncpyFrom (src : Bytes) : Nat → Nat → List UInt8
  | 0, _ => []
  | n + 1, i => if src i = 0 then List.replicate (n + 1) 0 else src i :: strncpyFrom src n (i + 1)

/-- The `n` bytes that `strncpy` leaves in `dest`. -/
def strncpy (src : Bytes) (n : Nat) : List UInt8 := strncpyFrom src n 0

/-! ## Strings -/

def cstrFrom (s : Bytes) : Nat → Nat → List UInt8
  | 0, _ => []
  | n + 1, i => if s i = 0 then [] else s i :: cstrFrom s n (i + 1)

/-- The string at `s`, cut after `n` bytes. -/
def cstr (s : Bytes) (n : Nat) : List UInt8 := cstrFrom s n 0

theorem strlenFrom_spec (s : Bytes) (fuel len : Nat) :
    len ≤ strlenFrom s fuel len ∧
      (∀ j, len ≤ j → j < strlenFrom s fuel len → s j ≠ 0) ∧
      (strlenFrom s fuel len < len + fuel → s (strlenFrom s fuel len) = 0) := by
  induction fuel generalizing len with
  | zero => exact ⟨Nat.le_refl _, fun j h h' ↦ absurd h' (Nat.not_lt.mpr h), fun h ↦ by
      simp [strlenFrom] at h⟩
  | succ fuel ih =>
      rw [strlenFrom]
      split
      · rename_i h0
        exact ⟨Nat.le_refl _, fun j h h' ↦ absurd h' (Nat.not_lt.mpr h), fun _ ↦ h0⟩
      · rename_i h0
        obtain ⟨hle, hne, hz⟩ := ih (len + 1)
        refine ⟨by omega, fun j h h' ↦ ?_, fun h ↦ hz (by omega)⟩
        rcases Nat.eq_or_lt_of_le h with rfl | h
        · exact h0
        · exact hne j h h'

/-- The byte at the length is NUL. -/
theorem eq_zero_at_strlen {s : Bytes} (h : strlen s < 2 ^ 32) : s (strlen s) = 0 :=
  (strlenFrom_spec s (2 ^ 32) 0).2.2 (by rw [Nat.zero_add]; exact h)

/-! ### Where a string ends -/

theorem length_cstrFrom_le (s : Bytes) (n i : Nat) : (cstrFrom s n i).length ≤ n := by
  induction n generalizing i with
  | zero => exact Nat.le_refl 0
  | succ n ih =>
      rw [cstrFrom]
      split
      · exact Nat.zero_le _
      · exact Nat.succ_le_succ (ih (i + 1))

/-- The bytes of a string are those in memory, and none of them is NUL. -/
theorem getElem?_cstrFrom (s : Bytes) (n i : Nat) {j : Nat} (h : j < (cstrFrom s n i).length) :
    (cstrFrom s n i)[j]? = some (s (i + j)) ∧ s (i + j) ≠ 0 := by
  induction n generalizing i j with
  | zero => exact absurd h (Nat.not_lt_zero j)
  | succ n ih =>
      rw [cstrFrom] at h ⊢
      split at h
      · exact absurd h (Nat.not_lt_zero j)
      · rename_i hne
        rw [if_neg hne]
        cases j with
        | zero => exact ⟨rfl, hne⟩
        | succ j =>
            have htail := ih (i + 1) (Nat.lt_of_succ_lt_succ h)
            rwa [Nat.add_assoc, Nat.add_comm 1 j] at htail

/-- No byte of a string is NUL. -/
theorem ne_zero_of_mem_cstrFrom (s : Bytes) (n i : Nat) : ∀ x ∈ cstrFrom s n i, x ≠ 0 := by
  intro x hx
  obtain ⟨j, hj, rfl⟩ := List.getElem_of_mem hx
  obtain ⟨hget, hne⟩ := getElem?_cstrFrom s n i hj
  rw [List.getElem?_eq_getElem hj, Option.some.injEq] at hget
  rwa [hget]

/-- A string that is not cut ends at a NUL. -/
theorem eq_zero_at_length_cstrFrom (s : Bytes) (n i : Nat) (h : (cstrFrom s n i).length < n) :
    s (i + (cstrFrom s n i).length) = 0 := by
  induction n generalizing i with
  | zero => exact absurd h (Nat.not_lt_zero _)
  | succ n ih =>
      rw [cstrFrom] at h ⊢
      split at h
      · rename_i h0
        rw [if_pos h0]
        exact h0
      · rename_i hne
        rw [if_neg hne, List.length_cons, Nat.add_comm _ 1, ← Nat.add_assoc]
        exact ih (i + 1) (Nat.lt_of_succ_lt_succ h)

/-- The rest of a string, after some of its bytes. -/
theorem drop_cstrFrom (s : Bytes) (n i : Nat) {k : Nat} (h : k ≤ (cstrFrom s n i).length) :
    (cstrFrom s n i).drop k = cstrFrom s (n - k) (i + k) := by
  induction k generalizing n i with
  | zero => rfl
  | succ k ih =>
      cases n with
      | zero => exact absurd h (Nat.not_succ_le_zero k)
      | succ n =>
          rw [cstrFrom] at h ⊢
          split at h
          · exact absurd h (Nat.not_succ_le_zero k)
          · rename_i hne
            rw [if_neg hne, List.drop_succ_cons, ih n (i + 1) (Nat.le_of_succ_le_succ h),
              Nat.succ_sub_succ, Nat.add_assoc, Nat.add_comm 1 k]

/-- `strlen` finds the first NUL. -/
theorem strlen_eq {s : Bytes} {n : Nat} (hzero : s n = 0) (hne : ∀ j, j < n → s j ≠ 0)
    (hn : n < 2 ^ 32) : strlen s = n := by
  obtain ⟨-, hlow, hend⟩ := strlenFrom_spec s (2 ^ 32) 0
  rcases Nat.lt_trichotomy (strlen s) n with hlt | heq | hlt
  · exact absurd (eq_zero_at_strlen (by omega)) (hne _ hlt)
  · exact heq
  · exact absurd hzero (hlow n (Nat.zero_le n) hlt)

/-- A string that is not cut has the length that `strlen` finds. -/
theorem length_cstr {s : Bytes} {n : Nat} (h : strlen s ≤ n) (hn : n < 2 ^ 32) :
    (cstr s n).length = strlen s := by
  have hzero := eq_zero_at_strlen (s := s) (by omega)
  have hlow := (strlenFrom_spec s (2 ^ 32) 0).2.1
  rcases Nat.lt_trichotomy (cstr s n).length (strlen s) with hlt | heq | hlt
  · have hend := eq_zero_at_length_cstrFrom s n 0 (Nat.lt_of_lt_of_le hlt h)
    rw [Nat.zero_add] at hend
    exact absurd hend (hlow _ (Nat.zero_le _) hlt)
  · exact heq
  · have hne := (getElem?_cstrFrom s n 0 hlt).2
    rw [Nat.zero_add] at hne
    exact absurd hzero hne

/-- The NUL-terminated string at `s`. -/
def cstring (s : Bytes) : List UInt8 := cstr s (strlen s)

theorem length_cstring {s : Bytes} (h : strlen s < 2 ^ 32) : (cstring s).length = strlen s :=
  length_cstr (Nat.le_refl _) h

/-- A string that is not cut is the whole string. -/
theorem cstr_eq_cstring {s : Bytes} {n : Nat} (h : strlen s ≤ n) (hn : n < 2 ^ 32) :
    cstr s n = cstring s := by
  have hlen := length_cstr h hn
  have hlen' := length_cstring (Nat.lt_of_le_of_lt h hn)
  refine List.ext_getElem? fun j ↦ ?_
  by_cases hj : j < strlen s
  · have hget := (getElem?_cstrFrom s n 0 (hj.trans_eq hlen.symm)).1
    have hget' := (getElem?_cstrFrom s (strlen s) 0 (hj.trans_eq hlen'.symm)).1
    exact hget.trans hget'.symm
  · rw [List.getElem?_eq_none (by omega), List.getElem?_eq_none (by omega)]

/-- The memory at `s` holds the string `l`, with a NUL behind it. -/
def Bytes.Holds (s : Bytes) (l : List UInt8) : Prop :=
  (∀ x ∈ l, x ≠ 0) ∧ ∀ j, j ≤ l.length → s j = l.getD j 0

theorem Bytes.Holds.strlen_eq {s : Bytes} {l : List UInt8} (h : s.Holds l)
    (hl : l.length < 2 ^ 32) : strlen s = l.length := by
  obtain ⟨hne, hget⟩ := h
  refine Illinix.strlen_eq ?_ (fun j hj ↦ ?_) hl
  · rw [hget _ (Nat.le_refl _), List.getD_eq_default l 0 (Nat.le_refl _)]
  · rw [hget j hj.le, List.getD_eq_getElem l 0 hj]
    exact hne _ (List.getElem_mem hj)

/-- The rest of a string in memory, after its first byte. -/
theorem Bytes.getD_tail {s : Bytes} {l : List UInt8} {x : UInt8} {i : Nat}
    (h : ∀ j, j ≤ (x :: l).length → s (i + j) = (x :: l).getD j 0) {j : Nat} (hj : j ≤ l.length) :
    s (i + 1 + j) = l.getD j 0 := by
  have hnext := h (j + 1) (Nat.succ_le_succ hj)
  rwa [← Nat.add_assoc, Nat.add_right_comm] at hnext

theorem cstrFrom_eq_of_getD {s : Bytes} {l : List UInt8} {n i : Nat} (hl : l.length < n)
    (hne : ∀ x ∈ l, x ≠ 0) (hget : ∀ j, j ≤ l.length → s (i + j) = l.getD j 0) :
    cstrFrom s n i = l := by
  induction l generalizing n i with
  | nil =>
      obtain ⟨n, rfl⟩ := Nat.exists_eq_succ_of_ne_zero (Nat.ne_zero_of_lt hl)
      exact if_pos (hget 0 (Nat.le_refl 0))
  | cons x l ih =>
      obtain ⟨n, rfl⟩ := Nat.exists_eq_succ_of_ne_zero (Nat.ne_zero_of_lt hl)
      have hfirst : s i = x := hget 0 (Nat.zero_le _)
      rw [cstrFrom, hfirst, if_neg (hne x List.mem_cons_self),
        ih (Nat.lt_of_succ_lt_succ hl) (fun y hy ↦ hne y (List.mem_cons_of_mem x hy))
          fun j hj ↦ Bytes.getD_tail hget hj]

/-- A string that ends within `n` bytes is not cut. -/
theorem Bytes.Holds.cstr_eq {s : Bytes} {l : List UInt8} (h : s.Holds l) {n : Nat}
    (hl : l.length < n) : cstr s n = l := by
  refine cstrFrom_eq_of_getD hl h.1 fun j hj ↦ ?_
  rw [Nat.zero_add, h.2 j hj]

theorem Bytes.Holds.cstring_eq {s : Bytes} {l : List UInt8} (h : s.Holds l)
    (hl : l.length + 1 < 2 ^ 32) : cstring s = l := by
  have hlen := h.strlen_eq (Nat.lt_of_succ_lt hl)
  rw [← cstr_eq_cstring (hlen.trans_le (Nat.le_succ _)) hl, h.cstr_eq (Nat.lt_succ_self _)]

/-- A string behind some bytes that are no NULs. -/
theorem Bytes.Holds.append {s : Bytes} {k : Nat} {l t : List UInt8} (hne : ∀ x ∈ l, x ≠ 0)
    (hl : ∀ j, j < l.length → s (k + j) = l.getD j 0) (ht : (s.at (k + l.length)).Holds t) :
    (s.at k).Holds (l ++ t) := by
  refine ⟨fun x hx ↦ ?_, fun j hj ↦ ?_⟩
  · rcases List.mem_append.mp hx with hx | hx
    · exact hne x hx
    · exact ht.1 x hx
  · rw [List.length_append] at hj
    rcases Nat.lt_or_ge j l.length with hlt | hge
    · rw [List.getD_append _ _ _ _ hlt]
      exact hl j hlt
    · obtain ⟨i, rfl⟩ := Nat.exists_eq_add_of_le hge
      rw [List.getD_append_right _ _ _ _ hge, Nat.add_sub_cancel_left, Bytes.at, ← Nat.add_assoc]
      exact ht.2 i (by omega)

/-- A string is stored from `k` on, with its NUL. -/
theorem Bytes.holds_applyLog (s : Bytes) (k : Nat) {l : List UInt8} (hne : ∀ x ∈ l, x ≠ 0) :
    (Bytes.at (Base.applyLog s (Base.logAt k (l ++ [0]))) k).Holds l := by
  refine ⟨hne, fun j hj ↦ ?_⟩
  rw [Bytes.at, Base.applyLog_logAt_add]
  rcases Nat.lt_or_eq_of_le hj with hlt | rfl
  · rw [List.getD_append _ _ _ _ hlt, List.getD_eq_getElem _ _ hlt, List.getD_eq_getElem _ _ hlt]
  · rw [List.getD_append_right _ _ _ _ (Nat.le_refl _), Nat.sub_self,
      List.getD_eq_default _ _ (Nat.le_refl _), List.getD_cons_zero]

/-- A list without a NUL, stored with one behind it. -/
theorem Bytes.holds_ofList {l : List UInt8} (h : ∀ x ∈ l, x ≠ 0) : (Bytes.ofList l).Holds l :=
  ⟨h, fun _ _ ↦ rfl⟩

theorem cstring_ofList {l : List UInt8} (h : ∀ x ∈ l, x ≠ 0) (hl : l.length < 2 ^ 32) :
    strlen (Bytes.ofList l) = l.length ∧ cstring (Bytes.ofList l) = l := by
  have hlen : strlen (Bytes.ofList l) = l.length := (Bytes.holds_ofList h).strlen_eq hl
  refine ⟨hlen, List.ext_getElem? fun j ↦ ?_⟩
  have hstr := length_cstring (s := Bytes.ofList l) (by omega)
  by_cases hj : j < l.length
  · have hget := (getElem?_cstrFrom (Bytes.ofList l) (strlen (Bytes.ofList l)) 0
      (hj.trans_eq (hstr.trans hlen).symm)).1
    rw [Nat.zero_add, Bytes.ofList, List.getD_eq_getElem l 0 hj,
      ← List.getElem?_eq_getElem hj] at hget
    exact hget
  · rw [List.getElem?_eq_none (by omega), List.getElem?_eq_none (by omega)]

/-- `strncpy` copies the string and fills the field up with NULs. -/
theorem strncpyFrom_eq (src : Bytes) (n i : Nat) :
    strncpyFrom src n i =
      cstrFrom src n i ++ List.replicate (n - (cstrFrom src n i).length) 0 := by
  induction n generalizing i with
  | zero => rfl
  | succ n ih =>
      rw [strncpyFrom, cstrFrom]
      split
      · rfl
      · rw [ih, List.cons_append, List.length_cons, Nat.succ_sub_succ]

theorem strncpy_eq (src : Bytes) (n : Nat) :
    strncpy src n = cstr src n ++ List.replicate (n - (cstr src n).length) 0 :=
  strncpyFrom_eq src n 0

/-- A field that is filled up with NULs is copied as it is. -/
theorem strncpy_eq_map {src : Bytes} {n : Nat}
    (hpad : ∀ j k, j ≤ k → k < n → src j = 0 → src k = 0) :
    strncpy src n = (List.range n).map src := by
  have hle : (cstr src n).length ≤ n := length_cstrFrom_le src n 0
  rw [strncpy_eq]
  refine List.ext_getElem? fun j ↦ ?_
  by_cases hj : j < n
  · rw [List.getElem?_map, List.getElem?_range hj, Option.map_some]
    by_cases hin : j < (cstr src n).length
    · have hget := (getElem?_cstrFrom src n 0 hin).1
      rw [Nat.zero_add] at hget
      rw [List.getElem?_append_left hin]
      exact hget
    · have hout := Nat.not_lt.mp hin
      have hend := eq_zero_at_length_cstrFrom src n 0 (Nat.lt_of_le_of_lt hout hj)
      rw [Nat.zero_add] at hend
      rw [List.getElem?_append_right hout, hpad _ j hout hj hend, List.getElem?_replicate,
        if_pos (by omega)]
  · rw [List.getElem?_eq_none, List.getElem?_eq_none]
    · rw [List.length_map, List.length_range]
      omega
    · rw [List.length_append, List.length_replicate]
      omega

/-! ### Comparing strings -/

theorem charVal_inj {a b : UInt8} (h : charVal a = charVal b) : a = b := by
  have h' : a.toInt8 = b.toInt8 := Int8.toInt_inj.mp h
  rw [← UInt8.toUInt8_toInt8 a, h', UInt8.toUInt8_toInt8]

theorem strncmpFrom_eq_zero_iff (s₁ s₂ : Bytes) (n i : Nat) :
    strncmpFrom s₁ s₂ n i = 0 ↔
      ∀ j, i ≤ j → j < i + n → (∀ k, i ≤ k → k < j → s₁ k ≠ 0) → s₁ j = s₂ j := by
  induction n generalizing i with
  | zero => exact ⟨fun _ j h h' ↦ absurd h' (Nat.not_lt.mpr h), fun _ ↦ rfl⟩
  | succ n ih =>
      rw [strncmpFrom]
      split
      · rename_i hstop
        constructor
        · intro h j hj hj' hne
          have heq : s₁ i = s₂ i := charVal_inj (by omega)
          rcases Nat.eq_or_lt_of_le hj with rfl | hlt
          · exact heq
          · rcases hstop with hstop | hstop
            · exact absurd heq hstop
            · exact absurd hstop (hne i (Nat.le_refl _) hlt)
        · intro h
          have heq := h i (Nat.le_refl _) (by omega) fun k hk hk' ↦
            absurd hk' (Nat.not_lt.mpr hk)
          rw [heq, Int.sub_self]
      · rename_i hgo
        push Not at hgo
        rw [ih]
        constructor
        · intro h j hj hj' hne
          rcases Nat.eq_or_lt_of_le hj with rfl | hlt
          · exact hgo.1
          · exact h j hlt (by omega) fun k hk hk' ↦ hne k (by omega) hk'
        · intro h j hj hj' hne
          refine h j (by omega) (by omega) fun k hk hk' ↦ ?_
          rcases Nat.eq_or_lt_of_le hk with rfl | hlt
          · exact hgo.2
          · exact hne k hlt hk'

/-- `strncmp` returns zero exactly if the strings agree in each of the first `n`
places that the first string reaches. -/
theorem strncmp_eq_zero_iff (s₁ s₂ : Bytes) (n : Nat) :
    strncmp s₁ s₂ n = 0 ↔ ∀ j, j < n → (∀ k, k < j → s₁ k ≠ 0) → s₁ j = s₂ j := by
  rw [strncmp, strncmpFrom_eq_zero_iff]
  simp

theorem cstrFrom_eq_iff (s₁ s₂ : Bytes) (n i : Nat) :
    cstrFrom s₁ n i = cstrFrom s₂ n i ↔
      ∀ j, i ≤ j → j < i + n → (∀ k, i ≤ k → k < j → s₁ k ≠ 0) → s₁ j = s₂ j := by
  rw [← strncmpFrom_eq_zero_iff]
  induction n generalizing i with
  | zero => exact ⟨fun _ ↦ rfl, fun _ ↦ rfl⟩
  | succ n ih =>
      rw [strncmpFrom, cstrFrom, cstrFrom]
      by_cases heq : s₁ i = s₂ i
      · by_cases h0 : s₁ i = 0
        · simp [← heq, h0]
        · have hgo : ¬ (s₁ i ≠ s₂ i ∨ s₁ i = 0) := not_or.mpr ⟨not_not.mpr heq, h0⟩
          rw [if_neg h0, if_neg (by rwa [← heq]), if_neg hgo, ← ih, heq, List.cons.injEq]
          exact and_iff_right rfl
      · have hne : charVal (s₁ i) - charVal (s₂ i) ≠ 0 := fun h ↦
          heq (charVal_inj (by omega))
        rw [if_pos (Or.inl heq)]
        refine ⟨fun h ↦ absurd h ?_, fun h ↦ absurd h hne⟩
        by_cases h₁ : s₁ i = 0
        · rw [if_pos h₁, if_neg (fun h₂ ↦ heq (h₁.trans h₂.symm))]
          exact (List.cons_ne_nil _ _).symm
        · rw [if_neg h₁]
          by_cases h₂ : s₂ i = 0
          · rw [if_pos h₂]
            exact List.cons_ne_nil _ _
          · rw [if_neg h₂]
            exact fun h ↦ heq (List.cons.inj h).1

theorem cstr_eq_iff (s₁ s₂ : Bytes) (n : Nat) :
    cstr s₁ n = cstr s₂ n ↔ ∀ j, j < n → (∀ k, k < j → s₁ k ≠ 0) → s₁ j = s₂ j := by
  rw [cstr, cstr, cstrFrom_eq_iff]
  simp

/-- Comparing as many bytes as the longer string has, but at most `n`, compares
the strings cut after `n` bytes.  The first string has to fit. -/
theorem strncmp_eq_zero_iff_cstr {s₁ s₂ : Bytes} {n : Nat} (h₁ : strlen s₁ ≤ n)
    (hn : n < 2 ^ 32) :
    strncmp s₁ s₂ (min (max (strlen s₁) (strlen s₂)) n) = 0 ↔ cstr s₁ n = cstr s₂ n := by
  rw [strncmp_eq_zero_iff, cstr_eq_iff]
  constructor
  · intro h j hj hne
    by_cases hlt : j < min (max (strlen s₁) (strlen s₂)) n
    · exact h j hlt hne
    · -- past the compared part both strings have ended, and at the same place
      have hz₁ : s₁ (strlen s₁) = 0 := eq_zero_at_strlen (by omega)
      have hj₁ : j ≤ strlen s₁ := by
        by_contra hc
        exact hne _ (Nat.lt_of_not_le hc) hz₁
      have hj₂ : strlen s₂ ≤ j := by omega
      have hz₂ : s₂ (strlen s₂) = 0 := eq_zero_at_strlen (by omega)
      rcases Nat.eq_or_lt_of_le hj₂ with heq | hlt₂
      · have : j = strlen s₁ := by omega
        rw [this, hz₁, ← this, ← heq, hz₂]
      · have hagree := h (strlen s₂) (by omega) fun k hk ↦ hne k (by omega)
        exact absurd (hagree.trans hz₂) (hne _ hlt₂)
  · exact fun h j hj hne ↦ h j (by omega) hne

end Illinix
