import Illinix.Base.Overlay
import Illinix.Lib.Memcpy

/-!
# `memset`, `memcpy` and `memmove` on one memory

Here the ranges are in the same memory, so they may overlap, and the string instructions go up or
down by the direction flag.  `memset` and `memcpy` store single bytes up to an aligned address,
longs from there on, and then the bytes that are left; they clear the flag before they use it.

The three routines leave what `overlay` and `copied` say.  `memmove` goes down when the destination
is ahead of the source, and sets the flag for that.  It does not clear it again (`memmove_iff`).
-/

namespace Illinix

open Base

/-- The memory, and the direction flag. -/
structure Cpu where
  mem : Bytes
  df : Bool

namespace Cpu

variable (t : Cpu)

/-- Where a string instruction goes from an element at `a`. -/
def advance (size a : Nat) : Nat :=
  if t.df then (a + (2 ^ 32 - size)) % 2 ^ 32 else (a + size) % 2 ^ 32

/-- The bytes from an address on. -/
def load (a size : Nat) : List UInt8 := (List.range size).map fun j ↦ t.mem ((a + j) % 2 ^ 32)

def storeFrom : Bytes → Nat → List UInt8 → Bytes
  | m, _, [] => m
  | m, a, x :: l => storeFrom (Function.update m a x) ((a + 1) % 2 ^ 32) l

/-- A store of the bytes of a register. -/
def store (a : Nat) (l : List UInt8) : Cpu := { t with mem := storeFrom t.mem a l }

/-- `rep stos`, with the bytes of the register. -/
def repStos (l : List UInt8) : Nat → Nat → Cpu → Cpu
  | 0, _, t => t
  | ecx + 1, edi, t => repStos l ecx (t.advance l.length edi) (t.store edi l)

/-- `rep movs`; an element is read as a whole before it is written. -/
def repMovs (size : Nat) : Nat → Nat → Nat → Cpu → Cpu
  | 0, _, _, t => t
  | ecx + 1, esi, edi, t =>
      repMovs size ecx (t.advance size esi) (t.advance size edi) (t.store edi (t.load esi size))

/-! ## `memset` -/

/-- Byte `j` of a register. -/
def byteOf (eax : BitVec 32) (j : Nat) : UInt8 := UInt8.ofBitVec ((eax >>> (8 * j)).setWidth 8)

/-- `.memset_bottom`. -/
def memsetBottom (eax : BitVec 32) : Nat → Nat → Cpu → Cpu
  | 0, _, t => t
  | edx + 1, edi, t => memsetBottom eax edx ((edi + 1) % 2 ^ 32) (t.store edi [byteOf eax 0])

/-- `.memset_aligned`. -/
def memsetAligned (eax : BitVec 32) (ecx edi : Nat) (t : Cpu) : Cpu :=
  let longs := ecx >>> 2
  let edx := ecx &&& 0x3
  let t' := repStos ((List.range 4).map (byteOf eax)) longs edi { t with df := false }
  memsetBottom eax edx ((edi + 4 * longs) % 2 ^ 32) t'

/-- `.memset_top`. -/
def memsetTop (eax : BitVec 32) : Nat → Nat → Cpu → Cpu
  | 0, _, t => t
  | ecx + 1, edi, t =>
      if edi &&& 0x3 = 0 then memsetAligned eax (ecx + 1) edi t
      else memsetTop eax ecx ((edi + 1) % 2 ^ 32) (t.store edi [byteOf eax 0])

/-- `memset(s, c, n)`: the pointer that it returns, and the state. -/
def memset (s : Nat) (c : BitVec 32) (n : Nat) : Nat × Cpu :=
  let c := c &&& 0xFF
  (s, memsetTop (c <<< 24 ||| c <<< 16 ||| c <<< 8 ||| c) n s t)

/-! ## `memcpy` -/

/-- `.memcpy_bottom`. -/
def memcpyBottom : Nat → Nat → Nat → Cpu → Cpu
  | 0, _, _, t => t
  | edx + 1, edi, esi, t =>
      memcpyBottom edx ((edi + 1) % 2 ^ 32) ((esi + 1) % 2 ^ 32) (t.store edi (t.load esi 1))

/-- `.memcpy_aligned`. -/
def memcpyAligned (ecx edi esi : Nat) (t : Cpu) : Cpu :=
  let longs := ecx >>> 2
  let edx := ecx &&& 0x3
  let t' := repMovs 4 longs esi edi { t with df := false }
  memcpyBottom edx ((edi + 4 * longs) % 2 ^ 32) ((esi + 4 * longs) % 2 ^ 32) t'

/-- `.memcpy_top`. -/
def memcpyTop : Nat → Nat → Nat → Cpu → Cpu
  | 0, _, _, t => t
  | ecx + 1, edi, esi, t =>
      if edi &&& 0x3 = 0 then memcpyAligned (ecx + 1) edi esi t
      else memcpyTop ecx ((edi + 1) % 2 ^ 32) ((esi + 1) % 2 ^ 32) (t.store edi (t.load esi 1))

/-- `memcpy(dest, src, n)`. -/
def memcpy (dest src n : Nat) : Nat × Cpu := (dest, memcpyTop n dest src t)

/-! ## `memmove` -/

/-- `leal -1(base, index)`. -/
def leaPred (base index : Nat) : Nat := (base + index + (2 ^ 32 - 1)) % 2 ^ 32

/-- `memmove(dest, src, n)`. -/
def memmove (dest src n : Nat) : Nat × Cpu :=
  if dest ≤ src then (dest, repMovs 1 n src dest { t with df := false })
  else (dest, repMovs 1 n (leaPred src n) (leaPred dest n) { t with df := true })

/-! ## Fills and copies -/

/-- A range is filled with a byte. -/
def fill (a n : Nat) (b : UInt8) : Cpu := { t with mem := overlay t.mem a n fun _ ↦ b }

/-- The range from `s` on is copied to `d`. -/
def copy (d s n : Nat) : Cpu := { t with mem := copied t.mem d s n }

@[simp] theorem fill_zero (a : Nat) (b : UInt8) : t.fill a 0 b = t := by
  rw [fill, overlay_zero]

@[simp] theorem copy_zero (d s : Nat) : t.copy d s 0 = t := by
  rw [copy, copied_zero]

theorem fill_fill (a k n : Nat) (b : UInt8) :
    (t.fill a k b).fill (a + k) n b = t.fill a (k + n) b := by
  rw [fill, fill, fill, ← overlay_append]

theorem copy_up {d s k n : Nat} (h : d ≤ s ∨ s + (k + n) ≤ d) :
    (t.copy d s k).copy (d + k) (s + k) n = t.copy d s (k + n) := by
  rw [copy, copy, copy, ← copied_up t.mem h]

theorem copy_down {d s k n : Nat} (h : s ≤ d ∨ d + (k + n) ≤ s) :
    (t.copy (d + k) (s + k) n).copy d s k = t.copy d s (k + n) := by
  rw [copy, copy, copy, ← copied_down t.mem h]

variable {t}

theorem storeFrom_eq (m : Bytes) {a : Nat} {l : List UInt8} (ha : a + l.length ≤ 2 ^ 32) :
    storeFrom m a l = overlay m a l.length fun i ↦ l.getD i 0 := by
  induction l generalizing m a with
  | nil => rw [storeFrom, List.length_nil, overlay_zero]
  | cons x l ih =>
      rw [List.length_cons] at ha
      rw [storeFrom, List.length_cons, Nat.add_comm l.length, ← overlay_append, overlay_one]
      cases l with
      | nil => rw [storeFrom, List.length_nil, overlay_zero, List.getD_cons_zero]
      | cons y l =>
          have hmod : (a + 1) % 2 ^ 32 = a + 1 := by
            rw [List.length_cons] at ha
            omega
          rw [hmod, ih _ (by omega), List.getD_cons_zero]
          refine overlay_congr _ fun i _ ↦ ?_
          rw [Nat.add_comm, List.getD_cons_succ]

/-- An element whose bytes are the same. -/
theorem store_replicate {a n : Nat} (ha : a + n ≤ 2 ^ 32) (b : UInt8) :
    t.store a (List.replicate n b) = t.fill a n b := by
  have hlen : (List.replicate n b).length = n := List.length_replicate
  rw [store, storeFrom_eq t.mem (by rw [hlen]; exact ha), hlen, fill]
  congr 1
  refine overlay_congr t.mem fun i hi ↦ ?_
  rw [List.getD_eq_getElem?_getD, List.getElem?_replicate_of_lt hi, Option.getD_some]

/-- An element that is moved. -/
theorem store_load {d s size : Nat} (hd : d + size ≤ 2 ^ 32) (hs : s + size ≤ 2 ^ 32) :
    t.store d (t.load s size) = t.copy d s size := by
  have hlen : (t.load s size).length = size := by rw [load, List.length_map, List.length_range]
  rw [store, storeFrom_eq t.mem (by rw [hlen]; exact hd), hlen, copy, copied]
  congr 1
  refine overlay_congr t.mem fun i hi ↦ ?_
  rw [load, List.getD_eq_getElem?_getD, List.getElem?_map, List.getElem?_range hi, Option.map_some,
    Option.getD_some, Nat.mod_eq_of_lt (by omega)]

/-! ## The string instructions

The addresses may reach the end of the memory, and the registers then wrap to 0; so an address that
is not used any more is given by its remainder. -/

theorem advance_up (hdf : t.df = false) (size a : Nat) :
    t.advance size (a % 2 ^ 32) = (a + size) % 2 ^ 32 := by
  rw [advance, if_neg (by rw [hdf]; decide), Nat.mod_add_mod]

theorem advance_down (hdf : t.df = true) (size a : Nat) :
    t.advance size a = (a + (2 ^ 32 - size)) % 2 ^ 32 := if_pos hdf

theorem repStos_eq (hdf : t.df = false) {size : Nat} (hpos : 0 < size) (b : UInt8) (ecx : Nat)
    {a : Nat} (ha : a + size * ecx ≤ 2 ^ 32) :
    repStos (List.replicate size b) ecx (a % 2 ^ 32) t = t.fill a (size * ecx) b := by
  induction ecx generalizing t a with
  | zero => rw [repStos, Nat.mul_zero, fill_zero]
  | succ ecx ih =>
      have hsize : size * (ecx + 1) = size + size * ecx := by rw [Nat.mul_succ, Nat.add_comm]
      have hmod : a % 2 ^ 32 = a := Nat.mod_eq_of_lt (by omega)
      have hrest := ih (t := t.fill a size b) (a := a + size) hdf (by omega)
      rw [repStos, List.length_replicate, advance_up hdf, hmod, store_replicate (by omega), hrest,
        fill_fill, hsize]

theorem repMovs_up (hdf : t.df = false) {size : Nat} (hpos : 0 < size) (ecx : Nat) {d s : Nat}
    (hd : d + size * ecx ≤ 2 ^ 32) (hs : s + size * ecx ≤ 2 ^ 32)
    (hsep : d ≤ s ∨ s + size * ecx ≤ d) :
    repMovs size ecx (s % 2 ^ 32) (d % 2 ^ 32) t = t.copy d s (size * ecx) := by
  induction ecx generalizing t d s with
  | zero => rw [repMovs, Nat.mul_zero, copy_zero]
  | succ ecx ih =>
      have hsize : size * (ecx + 1) = size + size * ecx := by rw [Nat.mul_succ, Nat.add_comm]
      have hdmod : d % 2 ^ 32 = d := Nat.mod_eq_of_lt (by omega)
      have hsmod : s % 2 ^ 32 = s := Nat.mod_eq_of_lt (by omega)
      have hrest := ih (t := t.copy d s size) (d := d + size) (s := s + size) hdf (by omega)
        (by omega) (by omega)
      rw [repMovs, advance_up hdf, advance_up hdf, hdmod, hsmod, store_load (by omega) (by omega),
        hrest, copy_up t (by omega), hsize]

/-- Down from the last byte. -/
theorem repMovs_down (hdf : t.df = true) (ecx : Nat) {d s : Nat} (hd : d + ecx ≤ 2 ^ 32)
    (hs : s + ecx ≤ 2 ^ 32) (hsep : s ≤ d) :
    repMovs 1 ecx (leaPred s ecx) (leaPred d ecx) t = t.copy d s ecx := by
  induction ecx generalizing t with
  | zero => rw [repMovs, copy_zero]
  | succ ecx ih =>
      have hlea : ∀ a, a + (ecx + 1) ≤ 2 ^ 32 → leaPred a (ecx + 1) = a + ecx := by
        intro a ha
        rw [leaPred]
        omega
      have hrest := ih (t := t.copy (d + ecx) (s + ecx) 1) hdf (by omega) (by omega)
      rw [repMovs, hlea d hd, hlea s hs, advance_down hdf, advance_down hdf,
        store_load (by omega) (by omega)]
      exact hrest.trans (copy_down t (.inl hsep))

/-! ## The routines -/

theorem getLsbD_mask (k : Nat) : (0xFF : BitVec 32).getLsbD k = decide (k < 8) := by
  have hbit : (0xFF : BitVec 32).getLsbD k = (decide (k < 32) && (2 ^ 8 - 1).testBit k) :=
    BitVec.getLsbD_ofNat 32 0xFF k
  rw [hbit, Nat.testBit_two_pow_sub_one, ← Bool.decide_and]
  exact decide_eq_decide.mpr (by omega)

/-- The long that `memset` stores. -/
theorem byteOf_fill (c : BitVec 32) {j : Nat} (hj : j < 4) :
    byteOf ((c &&& 0xFF) <<< 24 ||| (c &&& 0xFF) <<< 16 ||| (c &&& 0xFF) <<< 8 ||| c &&& 0xFF) j =
      UInt8.ofBitVec (c.setWidth 8) := by
  rw [byteOf]
  congr 1
  refine BitVec.eq_of_getLsbD_eq fun i hi ↦ ?_
  rw [BitVec.getLsbD_setWidth, BitVec.getLsbD_setWidth, decide_eq_true hi, Bool.true_and,
    Bool.true_and]
  simp only [BitVec.getLsbD_ushiftRight, BitVec.getLsbD_or, BitVec.getLsbD_shiftLeft,
    BitVec.getLsbD_and, getLsbD_mask]
  -- bit `i` of one of the four copies, and a masked bit of the others
  obtain rfl | rfl | rfl | rfl : j = 0 ∨ j = 1 ∨ j = 2 ∨ j = 3 := by omega
  all_goals grind

section Memset

variable {eax : BitVec 32} {b : UInt8}

theorem memsetBottom_eq (hb : byteOf eax 0 = b) (edx : Nat) {a : Nat} (ha : a + edx ≤ 2 ^ 32) :
    memsetBottom eax edx (a % 2 ^ 32) t = t.fill a edx b := by
  induction edx generalizing t a with
  | zero => rw [memsetBottom, fill_zero]
  | succ edx ih =>
      have hmod : a % 2 ^ 32 = a := Nat.mod_eq_of_lt (by omega)
      rw [memsetBottom, Nat.mod_add_mod, hmod, hb, ← List.replicate_one, store_replicate (by omega),
        ih (by omega), fill_fill, Nat.add_comm 1]

theorem memsetAligned_eq (hb : ∀ j, j < 4 → byteOf eax j = b) (ecx : Nat) {a : Nat}
    (ha : a + ecx ≤ 2 ^ 32) :
    memsetAligned eax ecx (a % 2 ^ 32) t = { t with df := false }.fill a ecx b := by
  have hlongs : ecx >>> 2 = ecx / 4 := Nat.shiftRight_eq_div_pow ecx 2
  have hbytes : (List.range 4).map (byteOf eax) = List.replicate 4 b :=
    List.eq_replicate_iff.mpr ⟨rfl, by simpa using hb⟩
  have hrep : repStos (List.replicate 4 b) (ecx / 4) (a % 2 ^ 32) { t with df := false } =
      { t with df := false }.fill a (4 * (ecx / 4)) b := repStos_eq rfl (by decide) b _ (by omega)
  rw [memsetAligned, hlongs, land_three, hbytes, hrep, Nat.mod_add_mod,
    memsetBottom_eq (hb 0 (by decide)) (ecx % 4) (by omega), fill_fill, Nat.div_add_mod]

/-- `memset` fills its range. -/
theorem memsetTop_mem (hb : ∀ j, j < 4 → byteOf eax j = b) (ecx : Nat) {a : Nat}
    (ha : a + ecx ≤ 2 ^ 32) : (memsetTop eax ecx (a % 2 ^ 32) t).mem = (t.fill a ecx b).mem := by
  induction ecx generalizing t a with
  | zero => rw [memsetTop, fill_zero]
  | succ ecx ih =>
      rw [memsetTop]
      split
      · rw [memsetAligned_eq hb (ecx + 1) ha]
        rfl
      · have hmod : a % 2 ^ 32 = a := Nat.mod_eq_of_lt (by omega)
        rw [Nat.mod_add_mod, hmod, hb 0 (by decide), ← List.replicate_one,
          store_replicate (by omega), ih (by omega), fill_fill, Nat.add_comm 1]

end Memset

/-! ### `memcpy` -/

theorem memcpyBottom_eq (edx : Nat) {d s : Nat} (hd : d + edx ≤ 2 ^ 32) (hs : s + edx ≤ 2 ^ 32)
    (hsep : d ≤ s ∨ s + edx ≤ d) :
    memcpyBottom edx (d % 2 ^ 32) (s % 2 ^ 32) t = t.copy d s edx := by
  induction edx generalizing t d s with
  | zero => rw [memcpyBottom, copy_zero]
  | succ edx ih =>
      have hdmod : d % 2 ^ 32 = d := Nat.mod_eq_of_lt (by omega)
      have hsmod : s % 2 ^ 32 = s := Nat.mod_eq_of_lt (by omega)
      rw [memcpyBottom, Nat.mod_add_mod, Nat.mod_add_mod, hdmod, hsmod,
        store_load (by omega) (by omega), ih (by omega) (by omega) (by omega), copy_up t (by omega),
        Nat.add_comm 1]

theorem memcpyAligned_eq (ecx : Nat) {d s : Nat} (hd : d + ecx ≤ 2 ^ 32) (hs : s + ecx ≤ 2 ^ 32)
    (hsep : d ≤ s ∨ s + ecx ≤ d) :
    memcpyAligned ecx (d % 2 ^ 32) (s % 2 ^ 32) t = { t with df := false }.copy d s ecx := by
  have hlongs : ecx >>> 2 = ecx / 4 := Nat.shiftRight_eq_div_pow ecx 2
  have hrep : repMovs 4 (ecx / 4) (s % 2 ^ 32) (d % 2 ^ 32) { t with df := false } =
      { t with df := false }.copy d s (4 * (ecx / 4)) :=
    repMovs_up rfl (by decide) _ (by omega) (by omega) (by omega)
  rw [memcpyAligned, hlongs, land_three, hrep, Nat.mod_add_mod, Nat.mod_add_mod,
    memcpyBottom_eq (ecx % 4) (by omega) (by omega) (by omega), copy_up _ (by omega),
    Nat.div_add_mod]

theorem memcpyTop_mem (ecx : Nat) {d s : Nat} (hd : d + ecx ≤ 2 ^ 32) (hs : s + ecx ≤ 2 ^ 32)
    (hsep : d ≤ s ∨ s + ecx ≤ d) :
    (memcpyTop ecx (d % 2 ^ 32) (s % 2 ^ 32) t).mem = (t.copy d s ecx).mem := by
  induction ecx generalizing t d s with
  | zero => rw [memcpyTop, copy_zero]
  | succ ecx ih =>
      rw [memcpyTop]
      split
      · rw [memcpyAligned_eq (ecx + 1) hd hs hsep]
        rfl
      · have hdmod : d % 2 ^ 32 = d := Nat.mod_eq_of_lt (by omega)
        have hsmod : s % 2 ^ 32 = s := Nat.mod_eq_of_lt (by omega)
        rw [Nat.mod_add_mod, Nat.mod_add_mod, hdmod, hsmod, store_load (by omega) (by omega),
          ih (by omega) (by omega) (by omega), copy_up t (by omega), Nat.add_comm 1]

theorem memcpy_mem (t : Cpu) {dest src n : Nat} (hd : dest + n ≤ 2 ^ 32) (hdlt : dest < 2 ^ 32)
    (hs : src + n ≤ 2 ^ 32) (hslt : src < 2 ^ 32) (hsep : dest ≤ src ∨ src + n ≤ dest) :
    (t.memcpy dest src n).2.mem = copied t.mem dest src n := by
  have htop := memcpyTop_mem (t := t) n hd hs hsep
  rwa [Nat.mod_eq_of_lt hdlt, Nat.mod_eq_of_lt hslt] at htop

/-- The stores of `memcpyRun`, where every address is mapped to itself. -/
theorem memcpy_mem_eq_applyLog (t : Cpu) {dest src n : Nat} (hd : dest + n ≤ 2 ^ 32)
    (hdlt : dest < 2 ^ 32) (hs : src + n ≤ 2 ^ 32) (hslt : src < 2 ^ 32)
    (hsep : dest ≤ src ∨ src + n ≤ dest) :
    (t.memcpy dest src n).2.mem =
      applyLog t.mem (memcpyRun some (t.mem.at src) dest n).physLog := by
  have hlen : ((List.range n).map (t.mem.at src)).length = n := by
    rw [List.length_map, List.length_range]
  have hin : dest + ((List.range n).map (t.mem.at src)).length ≤ 2 ^ 32 := by rwa [hlen]
  have hlog : (copyBytes some (2 ^ 32) (dest % 2 ^ 32) _).physLog = logAt dest _ :=
    (copyBytes_of_mapped hin fun j _ ↦ rfl).2.1
  rw [Nat.mod_eq_of_lt hdlt] at hlog
  rw [memcpy_mem t hd hdlt hs hslt hsep, memcpyRun_eq (fun _ _ _ _ ↦ rfl) hdlt, hlog,
    applyLog_logAt_range]
  rfl

/-- **`memset` and `memcpy` are the loops over single bytes**, for every alignment, whatever the
direction flag is: the range is filled, or copied if the destination is not ahead of the source
within it, and the rest of the memory stays. -/
theorem memset_memcpy_bytes (t : Cpu) :
    (∀ (s : Nat) (c : BitVec 32) (n : Nat), s + n ≤ 2 ^ 32 → s < 2 ^ 32 →
      (∀ i, i < n → (t.memset s c n).2.mem (s + i) = UInt8.ofBitVec (c.setWidth 8)) ∧
      ∀ x, ¬ (s ≤ x ∧ x < s + n) → (t.memset s c n).2.mem x = t.mem x) ∧
    ∀ dest src n : Nat, dest + n ≤ 2 ^ 32 → dest < 2 ^ 32 → src + n ≤ 2 ^ 32 → src < 2 ^ 32 →
      (dest + n ≤ src ∨ src + n ≤ dest) ∨ dest ≤ src →
      (∀ i, i < n → (t.memcpy dest src n).2.mem (dest + i) = t.mem (src + i)) ∧
      ∀ x, ¬ (dest ≤ x ∧ x < dest + n) → (t.memcpy dest src n).2.mem x = t.mem x := by
  constructor
  · intro s c n hn hs
    have hmem : (t.memset s c n).2.mem =
        overlay t.mem s n fun _ ↦ UInt8.ofBitVec (c.setWidth 8) := by
      have htop := memsetTop_mem (t := t) (fun j hj ↦ byteOf_fill c hj) n hn
      rwa [Nat.mod_eq_of_lt hs] at htop
    rw [hmem]
    exact ⟨fun i hi ↦ overlay_add t.mem hi, fun x hx ↦ overlay_of_notMem t.mem hx⟩
  · intro dest src n hd hdlt hs hslt hsep
    rw [memcpy_mem t hd hdlt hs hslt (by omega)]
    exact ⟨fun i hi ↦ copied_add t.mem hi, fun x hx ↦ copied_of_notMem t.mem hx⟩

/-- Longs that are copied one byte down, and that start at an address of any alignment. -/
theorem memset_memcpy_bytes_overlap :
    let t : Cpu := ⟨fun x ↦ UInt8.ofNat x, true⟩
    (t.memset 3 0x1FE 10).2.mem 12 = 0xFE ∧ (t.memset 3 0x1FE 10).2.mem 13 = 13 ∧
      (t.memcpy 3 4 10).2.mem 12 = 13 ∧ (t.memcpy 3 4 10).2.mem 13 = 13 := by
  intro t
  obtain ⟨hset, hcpy⟩ := memset_memcpy_bytes t
  obtain ⟨hfill, hrest⟩ := hset 3 0x1FE 10 (by decide) (by decide)
  obtain ⟨hcopy, hrest'⟩ := hcpy 3 4 10 (by decide) (by decide) (by decide) (by decide) (by decide)
  exact ⟨hfill 9 (by decide), hrest 13 (by decide), hcopy 9 (by decide), hrest' 13 (by decide)⟩

/-! ### `memmove` -/

/-- The contents are right in either direction, and the flag is the direction. -/
theorem memmove_eq (t : Cpu) {dest src n : Nat} (hd : dest + n ≤ 2 ^ 32) (hdlt : dest < 2 ^ 32)
    (hs : src + n ≤ 2 ^ 32) (hslt : src < 2 ^ 32) :
    t.memmove dest src n = (dest, { t with df := !decide (dest ≤ src) }.copy dest src n) := by
  rw [memmove]
  split
  · rename_i hle
    have hup : repMovs 1 n (src % 2 ^ 32) (dest % 2 ^ 32) { t with df := false } =
        { t with df := false }.copy dest src (1 * n) :=
      repMovs_up rfl Nat.one_pos n (by omega) (by omega) (.inl hle)
    rw [Nat.mod_eq_of_lt hdlt, Nat.mod_eq_of_lt hslt, Nat.one_mul] at hup
    rw [hup, decide_eq_true hle, Bool.not_true]
  · rename_i hlt
    rw [repMovs_down rfl n hd hs (Nat.le_of_not_le hlt), decide_eq_false hlt, Bool.not_false]

/-- **`memmove`** copies for every overlap.  It returns with the direction flag clear if and only if
the destination is not above the source. -/
theorem memmove_iff (t : Cpu) (dest src n : Nat) (hd : dest + n ≤ 2 ^ 32) (hdlt : dest < 2 ^ 32)
    (hs : src + n ≤ 2 ^ 32) (hslt : src < 2 ^ 32) :
    ((∀ i, i < n → (t.memmove dest src n).2.mem (dest + i) = t.mem (src + i)) ∧
      (∀ x, ¬ (dest ≤ x ∧ x < dest + n) → (t.memmove dest src n).2.mem x = t.mem x) ∧
      (t.memmove dest src n).2.df = false) ↔ dest ≤ src := by
  rw [memmove_eq t hd hdlt hs hslt]
  have hdf : ({ t with df := !decide (dest ≤ src) }.copy dest src n).df = false ↔ dest ≤ src := by
    rw [copy, Bool.not_eq_false', decide_eq_true_iff]
  refine ⟨fun h ↦ hdf.mp h.2.2, fun hle ↦ ⟨fun i hi ↦ ?_, fun x hx ↦ ?_, hdf.mpr hle⟩⟩
  · exact copied_add t.mem hi
  · exact copied_of_notMem t.mem hx

/-- Down by one byte. -/
theorem memmove_iff_down :
    let t : Cpu := ⟨fun x ↦ UInt8.ofNat x, true⟩
    (t.memmove 0 1 9).2.mem 8 = 9 ∧ (t.memmove 0 1 9).2.df = false := by
  intro t
  obtain ⟨hcopy, -, hdf⟩ := (memmove_iff t 0 1 9 (by decide) (by decide) (by decide)
    (by decide)).mpr (by decide)
  exact ⟨hcopy 8 (by decide), hdf⟩

/-- Up by one byte, with nothing to move. -/
theorem memmove_df_set :
    ¬ ((∀ i, i < 0 → ((⟨fun _ ↦ 0, false⟩ : Cpu).memmove 1 0 0).2.mem (1 + i) = 0) ∧
      (∀ x, ¬ (1 ≤ x ∧ x < 1 + 0) → ((⟨fun _ ↦ 0, false⟩ : Cpu).memmove 1 0 0).2.mem x = 0) ∧
      ((⟨fun _ ↦ 0, false⟩ : Cpu).memmove 1 0 0).2.df = false) :=
  fun h ↦ absurd h.2.2 (by decide)

end Cpu

end Illinix
