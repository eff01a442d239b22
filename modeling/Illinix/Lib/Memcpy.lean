import Illinix.Base.Copy
import Illinix.Lib.CString

/-!
# `memcpy`

The loops of `memcpy` (`lib.c`): single bytes up to an aligned destination, then longs, then the
bytes that are left.  A store to a page that is not mapped ends the copy with a fault.  A long at an
aligned address lies in one page, so it is stored whole or not at all; that is `WordMapped`, and
with it the three loops together copy byte by byte: `memcpyRun_eq`.

The source is what the code reads from the buffer on; its own page is always mapped.
-/

namespace Illinix

open Base

section Memcpy

variable (tr : Nat → Option Nat) (src : Bytes)

/-- A `movsl`. -/
def storeLong (edi esi : Nat) : CopyRun UInt8 :=
  match tr edi with
  | none => ⟨[], some edi⟩
  | some a => ⟨(List.range 4).map fun j ↦ ⟨edi + j, a + j, src (esi + j)⟩, none⟩

/-- `rep movsl`. -/
def repMovsl : Nat → Nat → Nat → CopyRun UInt8
  | 0, _, _ => .done
  | ecx + 1, edi, esi =>
      (storeLong tr src edi esi).andThen (repMovsl ecx ((edi + 4) % 2 ^ 32) (esi + 4))

/-- `.memcpy_bottom`. -/
def memcpyBottom : Nat → Nat → Nat → CopyRun UInt8
  | 0, _, _ => .done
  | edx + 1, edi, esi =>
      (storeOne tr edi (src esi)).andThen (memcpyBottom edx ((edi + 1) % 2 ^ 32) (esi + 1))

/-- `.memcpy_aligned`. -/
def memcpyAligned (ecx edi esi : Nat) : CopyRun UInt8 :=
  let longs := ecx >>> 2
  let edx := ecx &&& 0x3
  (repMovsl tr src longs edi esi).andThen
    (memcpyBottom tr src edx ((edi + 4 * longs) % 2 ^ 32) (esi + 4 * longs))

/-- `.memcpy_top`. -/
def memcpyTop : Nat → Nat → Nat → CopyRun UInt8
  | 0, _, _ => .done
  | ecx + 1, edi, esi =>
      if edi &&& 0x3 = 0 then memcpyAligned tr src (ecx + 1) edi esi
      else (storeOne tr edi (src esi)).andThen (memcpyTop ecx ((edi + 1) % 2 ^ 32) (esi + 1))

/-- `memcpy(dest, src, n)`. -/
def memcpyRun (dest n : Nat) : CopyRun UInt8 := memcpyTop tr src n dest 0

/-- The four bytes of an aligned long are mapped together. -/
def WordMapped : Prop := ∀ v j, v % 4 = 0 → j < 4 → tr (v + j) = (tr v).map (· + j)

/-- The bytes of the source. -/
def srcBytes (esi n : Nat) : List UInt8 := (List.range' esi n).map src

variable {tr src}

theorem srcBytes_succ (esi n : Nat) : srcBytes src esi (n + 1) = src esi :: srcBytes src (esi + 1) n := by
  rw [srcBytes, List.range'_succ, List.map_cons, srcBytes]

@[simp] theorem length_srcBytes (esi n : Nat) : (srcBytes src esi n).length = n := by
  rw [srcBytes, List.length_map, List.length_range']

theorem srcBytes_append (esi m n : Nat) :
    srcBytes src esi m ++ srcBytes src (esi + m) n = srcBytes src esi (m + n) := by
  rw [srcBytes, srcBytes, ← List.map_append, List.range'_append_1, srcBytes]

theorem land_three (x : Nat) : x &&& 0x3 = x % 4 := Nat.and_two_pow_sub_one_eq_mod x 2

/-- The bytes at the end are copied one by one. -/
theorem memcpyBottom_eq (edx edi esi : Nat) :
    memcpyBottom tr src edx edi esi = copyBytes tr (2 ^ 32) edi (srcBytes src esi edx) := by
  induction edx generalizing edi esi with
  | zero => rfl
  | succ edx ih => rw [memcpyBottom, ih, srcBytes_succ, copyBytes]

/-- A long is copied as its four bytes. -/
theorem storeLong_eq (hword : WordMapped tr) {edi : Nat} (hedi : edi % 4 = 0)
    (hlt : edi < 2 ^ 32) (esi : Nat) :
    storeLong tr src edi esi = copyBytes tr (2 ^ 32) edi (srcBytes src esi 4) := by
  have hmod : ∀ j, j < 4 → (edi + j) % 2 ^ 32 = edi + j := fun j hj ↦ Nat.mod_eq_of_lt (by omega)
  have hbytes : copyBytes tr (2 ^ 32) edi (srcBytes src esi 4) =
      (storeOne tr edi (src esi)).andThen ((storeOne tr (edi + 1) (src (esi + 1))).andThen
        ((storeOne tr (edi + 2) (src (esi + 2))).andThen
          ((storeOne tr (edi + 3) (src (esi + 3))).andThen .done))) := by
    have hsrc : srcBytes src esi 4 = [src esi, src (esi + 1), src (esi + 2), src (esi + 3)] := rfl
    rw [hsrc]
    simp only [copyBytes, hmod 1 (by decide), Nat.add_assoc, Nat.reduceAdd, hmod 2 (by decide),
      hmod 3 (by decide)]
  rw [hbytes, storeLong]
  simp only [storeOne, hword edi _ hedi (show 1 < 4 by decide), hword edi _ hedi (show 2 < 4 by decide),
    hword edi _ hedi (show 3 < 4 by decide)]
  cases tr edi with
  | none => rfl
  | some a => rfl

theorem repMovsl_eq (hword : WordMapped tr) (ecx : Nat) {edi : Nat} (hedi : edi % 4 = 0)
    (hlt : edi < 2 ^ 32) (esi : Nat) :
    repMovsl tr src ecx edi esi = copyBytes tr (2 ^ 32) edi (srcBytes src esi (4 * ecx)) := by
  induction ecx generalizing edi esi with
  | zero => rfl
  | succ ecx ih =>
      have hmod : edi % 2 ^ 32 = edi := Nat.mod_eq_of_lt hlt
      have happend : copyBytes tr (2 ^ 32) (edi % 2 ^ 32) _ = _ :=
        copyBytes_append edi (srcBytes src esi 4) (srcBytes src (esi + 4) (4 * ecx))
      rw [srcBytes_append, length_srcBytes, hmod] at happend
      rw [repMovsl, ih (by omega) (Nat.mod_lt _ (by decide)), storeLong_eq hword hedi hlt,
        ← happend, Nat.mul_add, Nat.mul_one, Nat.add_comm 4]

theorem memcpyAligned_eq (hword : WordMapped tr) (ecx : Nat) {edi : Nat} (hedi : edi % 4 = 0)
    (hlt : edi < 2 ^ 32) (esi : Nat) :
    memcpyAligned tr src ecx edi esi = copyBytes tr (2 ^ 32) edi (srcBytes src esi ecx) := by
  have hmod : edi % 2 ^ 32 = edi := Nat.mod_eq_of_lt hlt
  have hlongs : ecx >>> 2 = ecx / 4 := Nat.shiftRight_eq_div_pow ecx 2
  have happend : copyBytes tr (2 ^ 32) (edi % 2 ^ 32) _ = _ :=
    copyBytes_append edi (srcBytes src esi (4 * (ecx / 4)))
      (srcBytes src (esi + 4 * (ecx / 4)) (ecx % 4))
  rw [srcBytes_append, length_srcBytes, hmod, Nat.div_add_mod] at happend
  rw [memcpyAligned, hlongs, land_three]
  rw [repMovsl_eq hword _ hedi hlt, memcpyBottom_eq, ← happend]

theorem memcpyTop_eq (hword : WordMapped tr) (ecx : Nat) {edi : Nat} (hlt : edi < 2 ^ 32)
    (esi : Nat) :
    memcpyTop tr src ecx edi esi = copyBytes tr (2 ^ 32) edi (srcBytes src esi ecx) := by
  induction ecx generalizing edi esi with
  | zero => rfl
  | succ ecx ih =>
      rw [memcpyTop, land_three]
      split
      · rename_i hedi
        exact memcpyAligned_eq hword (ecx + 1) hedi hlt esi
      · rw [ih (Nat.mod_lt _ (by decide)), srcBytes_succ, copyBytes]

/-- **`memcpy` copies byte by byte**, however its destination is aligned. -/
theorem memcpyRun_eq (hword : WordMapped tr) {dest : Nat} (hlt : dest < 2 ^ 32) (n : Nat) :
    memcpyRun tr src dest n = copyBytes tr (2 ^ 32) dest ((List.range n).map src) := by
  rw [memcpyRun, memcpyTop_eq hword n hlt, srcBytes, ← List.range_eq_range']

end Memcpy

end Illinix
