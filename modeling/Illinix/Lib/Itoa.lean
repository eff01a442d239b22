import Illinix.Lib.CString
import Mathlib.Data.Nat.Digits.Lemmas

/-!
# Numerals

`itoa` writes the digits of a number to a buffer, the last one first, and lets `strrev` turn the
string around in place.  A string is written somewhere in a buffer that `printf` has on its stack,
so both take the buffer and the place in it; `Bytes.at` is the memory from a place on.

`itoa_holds` says what the buffer holds afterwards: the digits that Mathlib's `Nat.digits` gives,
and nothing has changed in front of them.  `readNumeral` is its inverse (`itoa_strrev`).

`strrev` counts with an `int32_t`, so it leaves a string of more than `2 ^ 31` bytes as it is.
-/

namespace Illinix

open Base

/-! ## `strrev` -/

/-- The loop of `strrev`, on the string at `s`. -/
def strrevLoop (s : Nat) : Nat → Int → Int → Bytes → Bytes
  | 0, _, _, m => m
  | fuel + 1, beg, last, m =>
      if beg < last then
        let tmp := m (s + last.toNat)
        let m := Function.update m (s + last.toNat) (m (s + beg.toNat))
        let m := Function.update m (s + beg.toNat) tmp
        strrevLoop s fuel (beg + 1) (last - 1) m
      else m

/-- What `end` is at first: the difference is unsigned, and stored to an `int32_t`. -/
def strrevEnd (len : Nat) : Int := (BitVec.ofNat 32 len - 1).toInt

/-- `strrev`; the loop takes fewer rounds than the string has bytes. -/
def strrev (s : Nat) (m : Bytes) : Bytes :=
  strrevLoop s (strlen (m.at s)) 0 (strrevEnd (strlen (m.at s))) m

theorem toNat_ofNat_sub_one (len : Nat) :
    (BitVec.ofNat 32 len - 1).toNat = (2 ^ 32 - 1 + len % 2 ^ 32) % 2 ^ 32 := by
  rw [BitVec.toNat_sub, BitVec.toNat_ofNat]
  rfl

theorem strrevEnd_of_le {len : Nat} (h : len ≤ 2 ^ 31) : strrevEnd len = len - 1 := by
  rw [strrevEnd, BitVec.toInt_eq_toNat_cond, toNat_ofNat_sub_one]
  omega

theorem strrevEnd_of_gt {len : Nat} (h : 2 ^ 31 < len) (hlt : len < 2 ^ 32) :
    strrevEnd len < 0 := by
  rw [strrevEnd, BitVec.toInt_eq_toNat_cond, toNat_ofNat_sub_one]
  omega

/-- The part from `beg` to `last` is mirrored, and the rest stays. -/
theorem strrevLoop_apply (s : Nat) {fuel : Nat} {beg last : Int} (m : Bytes) (h₀ : 0 ≤ beg)
    (hfuel : last - beg < 2 * fuel) (j : Nat) :
    strrevLoop s fuel beg last m (s + j) =
      if beg ≤ j ∧ j ≤ last then m (s + (beg + last - j).toNat) else m (s + j) := by
  induction fuel generalizing beg last m with
  | zero =>
      rw [strrevLoop, if_neg]
      omega
  | succ fuel ih =>
      rw [strrevLoop]
      by_cases hlt : beg < last
      · rw [if_pos hlt, ih _ (Int.le_add_one h₀) (by omega)]
        by_cases hin : beg + 1 ≤ j ∧ j ≤ last - 1
        · -- an inner byte: both it and its mirror image are untouched so far
          have hsum : beg + 1 + (last - 1) - j = beg + last - j := by omega
          rw [if_pos hin, if_pos (by omega), hsum, Function.update_of_ne (by omega),
            Function.update_of_ne (by omega)]
        · rw [if_neg hin]
          by_cases hbeg : (j : Int) = beg
          · have hj : s + j = s + beg.toNat := by omega
            have hlast : (beg + last - j).toNat = last.toNat := by omega
            rw [if_pos (by omega), hj, Function.update_self, hlast]
          · rw [Function.update_of_ne (by omega)]
            by_cases hend : (j : Int) = last
            · have hj : s + j = s + last.toNat := by omega
              have hfirst : (beg + last - j).toNat = beg.toNat := by omega
              rw [if_pos (by omega), hj, Function.update_self, hfirst]
            · rw [if_neg (by omega), Function.update_of_ne (by omega)]
      · rw [if_neg hlt]
        -- at most the middle byte is left, which is its own mirror image
        split
        · have hself : (beg + last - j).toNat = j := by omega
          rw [hself]
        · rfl

theorem strrevLoop_below (s : Nat) {fuel : Nat} {beg last : Int} (m : Bytes) {x : Nat}
    (hx : x < s) : strrevLoop s fuel beg last m x = m x := by
  induction fuel generalizing beg last m with
  | zero => rfl
  | succ fuel ih =>
      rw [strrevLoop]
      split
      · dsimp only
        rw [ih, Function.update_of_ne (by omega), Function.update_of_ne (by omega)]
      · rfl

/-- The string is mirrored, and what is behind it stays. -/
theorem strrev_apply {s : Nat} {m : Bytes} {l : List UInt8} (h : (m.at s).Holds l)
    (hl : l.length ≤ 2 ^ 31) (j : Nat) :
    strrev s m (s + j) = if j < l.length then m (s + (l.length - 1 - j)) else m (s + j) := by
  rw [strrev, h.strlen_eq (by omega), strrevEnd_of_le hl,
    strrevLoop_apply s m (Int.le_refl 0) (by omega)]
  by_cases hlt : j < l.length
  · have hmirror : (0 + ((l.length : Int) - 1) - j).toNat = l.length - 1 - j := by omega
    rw [if_pos (by omega), hmirror, if_pos hlt]
  · rw [if_neg (by omega), if_neg hlt]

theorem strrev_below {s x : Nat} (m : Bytes) (hx : x < s) : strrev s m x = m x :=
  strrevLoop_below s m hx

/-- **`strrev` turns a string around in place.** -/
theorem strrev_holds {s : Nat} {m : Bytes} {l : List UInt8} (h : (m.at s).Holds l)
    (hl : l.length ≤ 2 ^ 31) : ((strrev s m).at s).Holds l.reverse := by
  refine ⟨fun x hx ↦ h.1 x (List.mem_reverse.mp hx), fun j hj ↦ ?_⟩
  rw [List.length_reverse] at hj
  rw [Bytes.at, strrev_apply h hl]
  rcases Nat.lt_or_eq_of_le hj with hlt | rfl
  · have hget := h.2 (l.length - 1 - j) (by omega)
    rw [Bytes.at] at hget
    rw [if_pos hlt, hget, List.getD_eq_getElem _ _ (by omega),
      List.getD_eq_getElem _ _ (by rw [List.length_reverse]; exact hlt), List.getElem_reverse]
  · have hend := h.2 l.length (Nat.le_refl _)
    rw [Bytes.at] at hend
    rw [if_neg (Nat.lt_irrefl _), hend, List.getD_eq_default _ _ (Nat.le_refl _),
      List.getD_eq_default _ _ (by rw [List.length_reverse])]

/-- Twice is nothing, on the whole memory. -/
theorem strrev_strrev {s : Nat} {m : Bytes} {l : List UInt8} (h : (m.at s).Holds l)
    (hl : l.length ≤ 2 ^ 31) : strrev s (strrev s m) = m := by
  have hlen : l.reverse.length = l.length := List.length_reverse
  funext x
  by_cases hx : x < s
  · rw [strrev_below _ hx, strrev_below m hx]
  · obtain ⟨j, rfl⟩ := Nat.exists_eq_add_of_le (Nat.not_lt.mp hx)
    rw [strrev_apply (strrev_holds h hl) (hlen.trans_le hl), hlen]
    by_cases hj : j < l.length
    · have hmirror : l.length - 1 - (l.length - 1 - j) = j := by omega
      rw [if_pos hj, strrev_apply h hl, if_pos (by omega), hmirror]
    · rw [if_neg hj, strrev_apply h hl, if_neg hj]

/-- A string that is too long for `end` is left as it is. -/
theorem strrev_of_gt {s : Nat} {m : Bytes} {l : List UInt8} (h : (m.at s).Holds l)
    (hl : 2 ^ 31 < l.length) (hlt : l.length < 2 ^ 32) : strrev s m = m := by
  have hend := strrevEnd_of_gt hl hlt
  rw [strrev, h.strlen_eq hlt]
  generalize strrevEnd l.length = last at hend
  cases l.length with
  | zero => rfl
  | succ n => rw [strrevLoop, if_neg (by omega)]

/-! ## `itoa` -/

/-- The string `lookup`. -/
def digitChars : List UInt8 :=
  [0x30, 0x31, 0x32, 0x33, 0x34, 0x35, 0x36, 0x37, 0x38, 0x39, 0x41, 0x42, 0x43, 0x44, 0x45, 0x46,
    0x47, 0x48, 0x49, 0x4a, 0x4b, 0x4c, 0x4d, 0x4e, 0x4f, 0x50, 0x51, 0x52, 0x53, 0x54, 0x55, 0x56,
    0x57, 0x58, 0x59, 0x5a]

/-- `lookup[i]`. -/
def lookup (i : Nat) : UInt8 := digitChars.getD i 0

theorem lookup_ne_zero {i : Nat} (h : i < 36) : lookup i ≠ 0 := by
  have hall : ∀ x ∈ digitChars, x ≠ 0 := by simp [digitChars]
  have hlen : i < digitChars.length := h
  rw [lookup, List.getD_eq_getElem _ _ hlen]
  exact hall _ (List.getElem_mem hlen)

/-- The loop of `itoa`: where it stops, and the buffer. -/
def itoaLoop (radix : Nat) : Nat → Nat → Nat → Bytes → Nat × Bytes
  | 0, _, newbuf, m => (newbuf, m)
  | fuel + 1, newval, newbuf, m =>
      if newval > 0 then
        itoaLoop radix fuel (newval / radix) (newbuf + 1)
          (Function.update m newbuf (lookup (newval % radix)))
      else (newbuf, m)

/-- `itoa(value, buf, radix)`; a 32-bit number has no more than 32 digits. -/
def itoa (value buf radix : Nat) (m : Bytes) : Bytes :=
  if value = 0 then Function.update (Function.update m buf 0x30) (buf + 1) 0
  else
    let written := itoaLoop radix 33 value buf m
    strrev buf (Function.update written.2 written.1 0)

/-- The numeral of `value`, without leading zeros. -/
def numeral (radix value : Nat) : List UInt8 :=
  if value = 0 then [0x30] else (radix.digits value).reverse.map lookup

section Digits

variable {radix : Nat} (hlo : 2 ≤ radix) (hhi : radix ≤ 36)

include hlo

theorem length_digits_le {value : Nat} (h : value < 2 ^ 32) : (radix.digits value).length ≤ 32 := by
  rw [Nat.digits_length_le_iff hlo]
  exact h.trans_le (Nat.pow_le_pow_left hlo 32)

theorem itoaLoop_eq {fuel value : Nat} (hfuel : (radix.digits value).length < fuel) (newbuf : Nat)
    (m : Bytes) :
    itoaLoop radix fuel value newbuf m =
      (newbuf + (radix.digits value).length,
        applyLog m (logAt newbuf ((radix.digits value).map lookup))) := by
  induction fuel generalizing value newbuf m with
  | zero => exact absurd hfuel (Nat.not_lt_zero _)
  | succ fuel ih =>
      rw [itoaLoop]
      by_cases hpos : value > 0
      · have hdigits := Nat.digits_def' hlo hpos
        rw [hdigits, List.length_cons] at hfuel
        rw [if_pos hpos, ih (by omega), hdigits, List.length_cons, List.map_cons, logAt,
          applyLog_cons, Nat.add_assoc, Nat.add_comm 1]
      · obtain rfl : value = 0 := by omega
        rw [if_neg hpos, Nat.digits_zero]
        rfl

include hhi

/-- **`itoa` writes the numeral**, and leaves the bytes in front of it alone. -/
theorem itoa_holds {value : Nat} (hvalue : value < 2 ^ 32) (buf : Nat) (m : Bytes) :
    ((itoa value buf radix m).at buf).Holds (numeral radix value) ∧
      ∀ x, x < buf → itoa value buf radix m x = m x := by
  by_cases hzero : value = 0
  · rw [itoa, if_pos hzero, numeral, if_pos hzero]
    refine ⟨⟨by simp, fun j hj ↦ ?_⟩, fun x hx ↦ ?_⟩
    · rcases Nat.le_one_iff_eq_zero_or_eq_one.mp hj with rfl | rfl
      · rw [Bytes.at, Function.update_of_ne (by omega), Nat.add_zero, Function.update_self]
        rfl
      · rw [Bytes.at, Function.update_self]
        rfl
    · rw [Function.update_of_ne (by omega), Function.update_of_ne (by omega)]
  · have hlen := length_digits_le hlo hvalue
    have hloop := itoaLoop_eq hlo (Nat.lt_succ_of_le hlen) buf m
    have hbuf : Function.update (applyLog m (logAt buf ((radix.digits value).map lookup)))
        (buf + (radix.digits value).length) 0 =
          applyLog m (logAt buf ((radix.digits value).map lookup ++ [0])) := by
      rw [logAt_append, applyLog_append, List.length_map]
      rfl
    have hne : ∀ x ∈ (radix.digits value).map lookup, x ≠ 0 := by
      intro x hx
      obtain ⟨d, hd, rfl⟩ := List.mem_map.mp hx
      exact lookup_ne_zero ((Nat.digits_lt_base hlo hd).trans_le hhi)
    have hlength : ((radix.digits value).map lookup).length ≤ 2 ^ 31 := by
      rw [List.length_map]
      omega
    have hrev := strrev_holds (Bytes.holds_applyLog m buf hne) hlength
    rw [itoa, if_neg hzero, hloop]
    dsimp only
    rw [hbuf, numeral, if_neg hzero, List.map_reverse]
    refine ⟨hrev, fun x hx ↦ ?_⟩
    rw [strrev_below _ hx, applyLog_logAt_of_lt m _ hx]

end Digits

/-! ### Reading a numeral -/

/-- Reading a numeral, from the left. -/
def readNumeral (radix : Nat) (l : List UInt8) : Nat :=
  l.foldl (fun v x ↦ v * radix + digitChars.idxOf x) 0

theorem idxOf_lookup {i : Nat} (h : i < 36) : digitChars.idxOf (lookup i) = i := by
  have hnodup : digitChars.Nodup := by decide
  have hlen : i < digitChars.length := h
  rw [lookup, List.getD_eq_getElem _ _ hlen, hnodup.idxOf_getElem i hlen]

theorem readNumeral_map_lookup (radix : Nat) {ds : List Nat} (h : ∀ d ∈ ds, d < 36) :
    readNumeral radix (ds.reverse.map lookup) = Nat.ofDigits radix ds := by
  rw [readNumeral, List.map_reverse, List.foldl_reverse]
  induction ds with
  | nil => rfl
  | cons d ds ih =>
      rw [List.forall_mem_cons] at h
      rw [List.map_cons, List.foldr_cons, ih h.2, idxOf_lookup h.1, Nat.ofDigits_cons, Nat.mul_comm,
        Nat.add_comm]

theorem lookup_mem_take {i radix : Nat} (h : i < radix) (hhi : radix ≤ 36) :
    lookup i ∈ digitChars.take radix := by
  have hlen : i < digitChars.length := h.trans_le hhi
  rw [lookup, List.getD_eq_getElem _ _ hlen]
  exact List.mem_take_iff_getElem.mpr ⟨i, lt_min h hlen, rfl⟩

/-- What `itoa` writes is a numeral in the radix, for the value. -/
theorem numeral_spec {radix value : Nat} (hlo : 2 ≤ radix) (hhi : radix ≤ 36)
    (hvalue : value < 2 ^ 32) :
    numeral radix value ≠ [] ∧ (numeral radix value).length ≤ 32 ∧
      (∀ x ∈ numeral radix value, x ∈ digitChars.take radix) ∧
      ((numeral radix value).head? = some 0x30 → numeral radix value = [0x30]) ∧
      readNumeral radix (numeral radix value) = value := by
  rw [numeral]
  split
  · rename_i hzero
    refine ⟨List.cons_ne_nil _ _, by decide, fun x hx ↦ ?_, fun _ ↦ rfl, ?_⟩
    · rw [List.mem_singleton.mp hx]
      exact lookup_mem_take (i := 0) (by omega) hhi
    · rw [readNumeral, hzero, List.foldl_cons, List.foldl_nil, Nat.zero_mul]
      rfl
  · rename_i hne
    have hdigit : ∀ d ∈ radix.digits value, d < radix := fun d hd ↦ Nat.digits_lt_base hlo hd
    have hnil : radix.digits value ≠ [] := Nat.digits_ne_nil_iff_ne_zero.mpr hne
    refine ⟨?_, ?_, fun x hx ↦ ?_, fun hhead ↦ absurd hhead ?_, ?_⟩
    · rw [Ne, List.map_eq_nil_iff, List.reverse_eq_nil_iff]
      exact hnil
    · rw [List.length_map, List.length_reverse]
      exact length_digits_le hlo hvalue
    · obtain ⟨d, hd, rfl⟩ := List.mem_map.mp hx
      exact lookup_mem_take (hdigit d (List.mem_reverse.mp hd)) hhi
    · -- the first digit is the last one that the loop produced
      rw [List.head?_map, List.head?_reverse, List.getLast?_eq_some_getLast hnil, Option.map_some,
        Option.some.injEq]
      intro hfirst
      have hlt := (hdigit _ (List.getLast_mem hnil)).trans_le hhi
      have hidx := idxOf_lookup hlt
      rw [hfirst] at hidx
      exact Nat.getLast_digit_ne_zero radix hne hidx.symm
    · rw [readNumeral_map_lookup radix fun d hd ↦ (hdigit d hd).trans_le hhi, Nat.ofDigits_digits]

/-- **`itoa` is invertible**: it writes a numeral of the value that is NUL-terminated after at most
32 digits.  **`strrev` turns every string around in place** that has no more than `2 ^ 31` bytes, and
is its own inverse. -/
theorem itoa_strrev :
    (∀ (value buf radix : Nat) (m : Bytes), value < 2 ^ 32 → 2 ≤ radix → radix ≤ 36 →
      ∃ l, ((itoa value buf radix m).at buf).Holds l ∧ l ≠ [] ∧ l.length ≤ 32 ∧
        (∀ x ∈ l, x ∈ digitChars.take radix) ∧ (l.head? = some 0x30 → l = [0x30]) ∧
        readNumeral radix l = value) ∧
    ∀ (s : Nat) (m : Bytes) (l : List UInt8), (m.at s).Holds l → l.length ≤ 2 ^ 31 →
      ((strrev s m).at s).Holds l.reverse ∧
      (∀ x, ¬ (s ≤ x ∧ x < s + l.length) → strrev s m x = m x) ∧ strrev s (strrev s m) = m := by
  constructor
  · intro value buf radix m hvalue hlo hhi
    exact ⟨_, (itoa_holds hlo hhi hvalue buf m).1, numeral_spec hlo hhi hvalue⟩
  · intro s m l h hl
    refine ⟨strrev_holds h hl, fun x hx ↦ ?_, strrev_strrev h hl⟩
    rcases Nat.lt_or_ge x s with hlow | hge
    · exact strrev_below m hlow
    · obtain ⟨j, rfl⟩ := Nat.exists_eq_add_of_le hge
      rw [strrev_apply h hl, if_neg (by omega)]

theorem holds_at_ofList {l : List UInt8} (h : ∀ x ∈ l, x ≠ 0) :
    (Bytes.at (.ofList l) 0).Holds l := by
  rw [Bytes.at_zero]
  exact Bytes.holds_ofList h

/-- A number above `2 ^ 31`, and a string of two bytes. -/
theorem itoa_strrev_hex :
    (∃ l, ((itoa 0xDEADBEEF 8 16 fun _ ↦ 1).at 8).Holds l ∧ readNumeral 16 l = 0xDEADBEEF) ∧
      ((strrev 0 (.ofList [0x61, 0x62])).at 0).Holds [0x62, 0x61] := by
  obtain ⟨l, hl, -, -, -, -, hread⟩ :=
    itoa_strrev.1 0xDEADBEEF 8 16 (fun _ ↦ 1) (by decide) (by decide) (by decide)
  refine ⟨⟨l, hl, hread⟩, ?_⟩
  exact (itoa_strrev.2 0 (.ofList [0x61, 0x62]) [0x61, 0x62] (holds_at_ofList (by simp))
    (by decide)).1

/-- A string of one byte and `n` equal ones, too long for `end`. -/
theorem not_holds_strrev {n : Nat} (hn : 2 ^ 31 ≤ n) (hlt : n + 1 < 2 ^ 32) :
    (Bytes.at (.ofList (0x62 :: List.replicate n 0x61)) 0).Holds (0x62 :: List.replicate n 0x61) ∧
      ¬ ((strrev 0 (.ofList (0x62 :: List.replicate n 0x61))).at 0).Holds
        (0x62 :: List.replicate n 0x61).reverse := by
  have hlen : (0x62 :: List.replicate n (0x61 : UInt8)).length = n + 1 := by
    rw [List.length_cons, List.length_replicate]
  have hne : ∀ x ∈ (0x62 : UInt8) :: List.replicate n 0x61, x ≠ 0 := by
    rw [List.forall_mem_cons]
    refine ⟨by decide, fun x hx ↦ ?_⟩
    rw [List.eq_of_mem_replicate hx]
    decide
  refine ⟨holds_at_ofList hne, ?_⟩
  rw [strrev_of_gt (holds_at_ofList hne) (by omega) (by omega), Bytes.at_zero]
  rintro ⟨-, hget⟩
  have hfirst := hget 0 (Nat.zero_le _)
  obtain ⟨k, rfl⟩ : ∃ k, n = k + 1 := Nat.exists_eq_add_one_of_ne_zero (by omega)
  rw [List.reverse_cons, List.reverse_replicate, List.replicate_succ, List.cons_append,
    List.getD_cons_zero] at hfirst
  exact absurd hfirst (show (0x62 : UInt8) ≠ 0x61 by decide)

/-- One byte more than `end` can count. -/
theorem strrev_too_long :
    (Bytes.at (.ofList (0x62 :: List.replicate (2 ^ 31) 0x61)) 0).Holds
        (0x62 :: List.replicate (2 ^ 31) 0x61) ∧
      ¬ ((strrev 0 (.ofList (0x62 :: List.replicate (2 ^ 31) 0x61))).at 0).Holds
        (0x62 :: List.replicate (2 ^ 31) 0x61).reverse :=
  not_holds_strrev (Nat.le_refl _) (by decide)

end Illinix
