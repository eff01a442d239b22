import Mathlib.Algebra.Order.Group.Nat
import Illinix.Base.Split
import Illinix.Fish.BlinkShow
import Illinix.Syscalls.Cat

/-!
# The frames of the fish

`add_frames` reads two files side by side, a character of each at a time, and adds a blinking
character for each place where one of them has something other than a blank.  A file that has
reached the end of a row waits there for the other one, and a file that has ended is closed.

`add_frames_blinks` says what the two nested loops come to: the files are cut into rows at the
newlines, and the calls of `mp1_ioctl` are those for the cells of the rows, from the top left to the
bottom right.
-/

namespace Illinix

open Base

/-- One of the two files: its descriptor, the character that was read last, and whether its end
was seen (`fd0`, `c0` and `eof0`). -/
structure FrameFile where
  fd : Int
  c : UInt8
  eof : Bool

namespace FrameFile

/-- A character is read, unless the file waits at the end of a row. -/
def next (f : FrameFile) (w : World) : FrameFile × World :=
  if f.c ≠ 0x0a then
    let r := w.read f.fd 1
    if r.1.ret = 0 then ({ f with c := 0x0a, eof := true }, r.2)
    else ({ f with c := r.1.stored.headD f.c }, r.2)
  else (f, w)

/-- Behind a row. -/
def endRow (f : FrameFile) (w : World) : FrameFile × World :=
  if f.eof then ({ f with c := 0x0a }, w.setTbl (FdArray.close w.tbl f.fd).2)
  else ({ f with c := 0x30 }, w)

end FrameFile

/-- The variables of `add_frames` but for `row`, and what it works on. -/
structure Frames where
  f0 : FrameFile
  f1 : FrameFile
  col : Nat
  world : World
  fish : Fish

/-- What is passed to `mp1_ioctl` for a cell; the other fields of `blink_struct` are never set. -/
def frameBlink (junk : Mp1BlinkStruct (BitVec 32)) (row col : Nat) (c0 c1 : UInt8) :
    Mp1BlinkStruct (BitVec 32) :=
  { junk with
    onChar := (if c0 = 0x0a then 0x20 else c0).toBitVec
    offChar := (if c1 = 0x0a then 0x20 else c1).toBitVec
    onLength := 15
    offLength := 15
    location := BitVec.ofNat 16 (row * 80 + col + 40) }

namespace Frames

/-- A round of the inner loop. -/
def cell (junk : Mp1BlinkStruct (BitVec 32)) (row : Nat) (s : Frames) : Frames ⊕ Frames :=
  let r0 := s.f0.next s.world
  let r1 := s.f1.next r0.2
  let s' : Frames := { s with f0 := r0.1, f1 := r1.1, world := r1.2 }
  let c0 := r0.1.c
  let c1 := r1.1.c
  if c0 = 0x0a ∧ c1 = 0x0a then .inl s'
  else
    let fish := if (c0 ≠ 0x20 ∧ c0 ≠ 0x0a) ∨ (c1 ≠ 0x20 ∧ c1 ≠ 0x0a) then
        (s.fish.mp1IoctlAdd (frameBlink junk row s.col c0 c1)).2
      else s.fish
    .inr { s' with fish := fish, col := s.col + 1 }

/-- A round of the outer loop; `none` if the inner one has not ended after `n` rounds. -/
def row (junk : Mp1BlinkStruct (BitVec 32)) (n : Nat) (s : Nat × Frames) :
    Option Frames ⊕ (Nat × Frames) :=
  if s.2.f0.eof ∧ s.2.f1.eof then .inl (some s.2)
  else
    match rounds (cell junk s.1) n { s.2 with col := 0 } with
    | .inr _ => .inl none
    | .inl s' =>
        let r0 := s'.f0.endRow s'.world
        let r1 := s'.f1.endRow r0.2
        .inr (s.1 + 1, { s' with f0 := r0.1, f1 := r1.1, world := r1.2 })

end Frames

/-- `add_frames`: the status of a `halt`, or the state it returns in; `none` if it has not ended
after `n` rounds of a loop. -/
def addFrames (n : Nat) (junk : Mp1BlinkStruct (BitVec 32)) (file0 file1 : Bytes) (w : World)
    (fish : Fish) : Option (Int ⊕ Frames) :=
  let r0 := w.openFd file0
  if r0.1 < 0 then some (.inl (-1))
  else
    let r1 := r0.2.openFd file1
    if r1.1 < 0 then some (.inl (-1))
    else
      match rounds (Frames.row junk n) n
          (0, ⟨⟨r0.1, 0x30, false⟩, ⟨r1.1, 0x30, false⟩, 0, r1.2, fish⟩) with
      | .inr _ => none
      | .inl s => s.map .inr

/-! ## What the files say -/

/-- The call for a cell, which has a blank where its row has ended. -/
def cellBlink (junk : Mp1BlinkStruct (BitVec 32)) (row : Nat) (l0 l1 : List UInt8) (col : Nat) :
    Option (Mp1BlinkStruct (BitVec 32)) :=
  if l0.getD col 0x20 ≠ 0x20 ∨ l1.getD col 0x20 ≠ 0x20 then
    some (frameBlink junk row col (l0.getD col 0x20) (l1.getD col 0x20))
  else none

/-- The calls for a row. -/
def rowBlinks (junk : Mp1BlinkStruct (BitVec 32)) (row : Nat) (l0 l1 : List UInt8) :
    List (Mp1BlinkStruct (BitVec 32)) :=
  (List.range (max l0.length l1.length)).filterMap (cellBlink junk row l0 l1)

/-- The calls for two texts, row by row. -/
def frameBlinks (junk : Mp1BlinkStruct (BitVec 32)) (rows0 rows1 : List (List UInt8)) :
    List (Mp1BlinkStruct (BitVec 32)) :=
  (List.range (max rows0.length rows1.length)).flatMap fun row ↦
    rowBlinks junk row (rows0.getD row []) (rows1.getD row [])

example : (frameBlinks ⟨0, 0, 0, 0, 0, 0, 0, 0⟩ [[0x6f], [0x20, 0x78]] [[0x2e]]).map
    (fun user ↦ (user.location, user.onChar, user.offChar)) =
    [(40, 0x6f, 0x2e), (121, 0x78, 0x20)] := by decide

/-! ## A file as a text -/

/-- What a file has left, as the loops see it. -/
structure FrameText where
  c : UInt8
  eof : Bool
  rest : List UInt8

namespace FrameText

def next (t : FrameText) : FrameText :=
  if t.c ≠ 0x0a then
    match t.rest with
    | [] => ⟨0x0a, true, []⟩
    | b :: rest => ⟨b, t.eof, rest⟩
  else t

def endRow (t : FrameText) : FrameText := { t with c := if t.eof then 0x0a else 0x30 }

/-- The rows that are left. -/
def rows (t : FrameText) : List (List UInt8) := if t.eof then [] else t.rest.splitOn 0x0a

/-- A text in front of a row. -/
def AtRow (t : FrameText) : Prop := t.c = if t.eof then 0x0a else 0x30

theorem next_of_newline {t : FrameText} (h : t.c = 0x0a) : t.next = t := if_neg (not_not.mpr h)

theorem next_iterate_of_newline {t : FrameText} (h : t.c = 0x0a) (k : Nat) : next^[k] t = t :=
  Function.iterate_fixed (next_of_newline h) k

theorem next_cons {c b : UInt8} (hc : c ≠ 0x0a) (e : Bool) (rest : List UInt8) :
    next ⟨c, e, b :: rest⟩ = ⟨b, e, rest⟩ := if_pos hc

/-- Up to the end of a row, the characters come one after another. -/
theorem next_iterate_line {c : UInt8} (hc : c ≠ 0x0a) {line : List UInt8} (hline : 0x0a ∉ line)
    (e : Bool) (rest : List UInt8) :
    ∀ k, k ≤ line.length →
      next^[k] ⟨c, e, line ++ rest⟩ = ⟨(c :: line).getD k 0x0a, e, line.drop k ++ rest⟩ := by
  induction line generalizing c with
  | nil =>
      rintro k hk
      obtain rfl := Nat.le_zero.mp hk
      rfl
  | cons b line ih =>
      rintro (_ | k) hk
      · rfl
      · have hb : b ≠ 0x0a := fun heq ↦ hline (heq ▸ List.mem_cons_self)
        rw [Function.iterate_succ_apply, List.cons_append, next_cons hc,
          ih hb (fun hmem ↦ hline (List.mem_cons_of_mem b hmem)) k (Nat.le_of_succ_le_succ hk)]
        rfl

/-- The character in front of the end of a row. -/
theorem getD_ne_newline {c : UInt8} (hc : c ≠ 0x0a) {line : List UInt8} (hline : 0x0a ∉ line) :
    (c :: line).getD line.length 0x0a ≠ 0x0a := by
  rw [List.getD_eq_getElem _ _ (Nat.lt_succ_self line.length)]
  intro heq
  rcases List.mem_cons.mp (heq ▸ List.getElem_mem _) with h | h
  · exact hc h.symm
  · exact hline h

/-- A row of a text that has not ended. -/
theorem exists_row {t : FrameText} (hc : t.c = 0x30) (heof : t.eof = false) :
    ∃ line t', 0x0a ∉ line ∧ t.rows = line :: t'.endRow.rows ∧ t'.c = 0x0a ∧
      (∀ k, k < line.length → (next^[k + 1] t).c = line.getD k 0x0a) ∧
      next^[line.length + 1] t = t' := by
  obtain ⟨c, e, rest⟩ := t
  obtain rfl : c = 0x30 := hc
  obtain rfl : e = false := heof
  have hzero : (0x30 : UInt8) ≠ 0x0a := by decide
  have hline := notMem_takeWhile (0x0a : UInt8) rest
  have hsplit := eq_takeWhile_or (0x0a : UInt8) rest
  generalize rest.takeWhile (· ≠ 0x0a) = line at hline hsplit
  have hlast := getD_ne_newline hzero hline
  have hchar (tail : List UInt8) (k : Nat) (hk : k < line.length) :
      (next^[k + 1] ⟨0x30, false, line ++ tail⟩).c = line.getD k 0x0a := by
    rw [next_iterate_line hzero hline false tail _ hk]
    rfl
  have hend (tail : List UInt8) : next^[line.length + 1] ⟨0x30, false, line ++ tail⟩ =
      next ⟨(0x30 :: line).getD line.length 0x0a, false, tail⟩ := by
    rw [Function.iterate_succ_apply', next_iterate_line hzero hline false tail _ (Nat.le_refl _),
      List.drop_length, List.nil_append]
  rcases hsplit with hrest | ⟨l', hrest⟩
  · -- the file ends without a newline, or right behind one
    refine ⟨line, ⟨0x0a, true, []⟩, hline, ?_, rfl, ?_, ?_⟩
    · rw [hrest]
      exact List.splitOn_eq_singleton hline
    · rw [hrest, ← List.append_nil line]
      simpa using hchar []
    · rw [hrest, ← List.append_nil line]
      simpa using (hend []).trans (if_pos hlast)
  · refine ⟨line, ⟨0x0a, false, l'⟩, hline, ?_, rfl, ?_, ?_⟩
    · rw [hrest]
      refine (List.splitOn_append_cons_self line l').trans ?_
      rw [List.splitOn_eq_singleton hline]
      rfl
    · rw [hrest]
      exact hchar _
    · rw [hrest, hend, next_cons hlast]

/-- **A row of a text**, whether it has ended or not: its characters come one after another, with
newlines behind them, and then the text is in front of the next row. -/
theorem AtRow.row {t : FrameText} (h : t.AtRow) :
    0x0a ∉ t.rows.headD [] ∧ (∀ k, (next^[k + 1] t).c = (t.rows.headD []).getD k 0x0a) ∧
      ∀ k, (t.rows.headD []).length ≤ k → (next^[k + 1] t).endRow.rows = t.rows.tail := by
  cases heof : t.eof with
  | true =>
      have hc : t.c = 0x0a := by rw [h, if_pos heof]
      have hrows : t.rows = [] := if_pos heof
      rw [hrows]
      refine ⟨List.not_mem_nil, fun k ↦ ?_, fun k _ ↦ ?_⟩
      · rw [next_iterate_of_newline hc, hc]
        rfl
      · rw [next_iterate_of_newline hc]
        exact if_pos heof
  | false =>
      have hc : t.c = 0x30 := by rw [h, if_neg (by rw [heof]; decide)]
      obtain ⟨line, t', hline, hrows, hend, hchar, hlast⟩ := exists_row hc heof
      have hbehind (k : Nat) (hk : line.length ≤ k) : next^[k + 1] t = t' := by
        obtain ⟨j, rfl⟩ := Nat.exists_eq_add_of_le hk
        rw [show line.length + j + 1 = j + (line.length + 1) by omega, Function.iterate_add_apply,
          hlast, next_iterate_of_newline hend]
      rw [hrows]
      refine ⟨hline, fun k ↦ ?_, fun k hk ↦ congrArg (fun t ↦ t.endRow.rows) (hbehind k hk)⟩
      rcases Nat.lt_or_ge k line.length with hk | hk
      · exact hchar k hk
      · rw [hbehind k hk, hend, List.headD_cons, List.getD_eq_default _ _ hk]

theorem atRow_endRow (t : FrameText) : t.endRow.AtRow := rfl

theorem rows_eq_nil_iff (t : FrameText) : t.rows = [] ↔ t.eof = true := by
  rw [rows]
  split
  · rename_i h
    exact iff_of_true rfl h
  · rename_i h
    exact iff_of_false (List.splitOn_ne_nil _ _) h

end FrameText

/-! ## Files and texts -/

namespace FrameFile

/-- A file that has as much left as a text. -/
structure Reads (f : FrameFile) (w : World) (i : Nat) (t : FrameText) : Prop where
  fd : f.fd = i
  c : f.c = t.c
  eof : f.eof = t.eof
  ended : t.eof = true → t.c = 0x0a
  opened : t.eof = false → ∃ inode pos, FdArray.OpenAt w.tbl i inode pos ∧
    inode ≤ w.img.numInodes ∧ w.img.inodeLength inode ≤ numDataBlocks * dataBlockSize ∧
    pos ≤ w.img.inodeLength inode ∧ (w.img.contents inode).drop pos = t.rest

variable {f : FrameFile} {w : World} {i : Nat} {t : FrameText}

/-- A call on another descriptor. -/
theorem Reads.of_tbl (h : f.Reads w i t) {tbl : FdArray} (htbl : tbl i = w.tbl i) :
    f.Reads (w.setTbl tbl) i t where
  fd := h.fd
  c := h.c
  eof := h.eof
  ended := h.ended
  opened heof := by
    obtain ⟨inode, pos, hopen, hrest⟩ := h.opened heof
    exact ⟨inode, pos, hopen.of_eq htbl, hrest⟩

/-- **A character.** -/
theorem Reads.next (h : f.Reads w i t) :
    ∃ tbl, (f.next w).2 = w.setTbl tbl ∧ (∀ j, j ≠ i → tbl j = w.tbl j) ∧
      (f.next w).1.Reads (w.setTbl tbl) i t.next := by
  by_cases hc : t.c = 0x0a
  · have hnext : f.next w = (f, w) := if_neg (not_not.mpr (h.c.trans hc))
    rw [hnext, FrameText.next_of_newline hc]
    exact ⟨w.tbl, rfl, fun _ _ ↦ rfl, h⟩
  have heof : t.eof = false := Bool.eq_false_iff.mpr fun heof ↦ hc (h.ended heof)
  obtain ⟨inode, pos, hopen, hinode, hlen, hpos, hrest⟩ := h.opened heof
  have hdriver : World.driver w.tbl i ≠ some .terminalInput := by
    rw [World.driver_of_flags hopen.lt (by rw [hopen.flags]; decide) hopen.ops]
    nofun
  have hone : (0 : Int) ≤ 1 ∧ (1 : Int) < 2 ^ 31 := ⟨by decide, by decide⟩
  obtain ⟨hres, hopen', hle⟩ := hopen.read hinode hlen hpos hone .fail
  have hother : ∀ j : Nat, j ≠ i → (FdArray.read w.img .fail w.tbl i 1).2 j = w.tbl j :=
    fun j hj ↦ FdArray.read_other (by omega)
  have hread : w.read i 1 = _ := World.read_eq hdriver
  have hf : f.c ≠ 0x0a := fun heq ↦ hc (h.c.symm.trans heq)
  rw [hres, hrest] at hread
  rw [hrest] at hopen' hle
  generalize (FdArray.read w.img .fail w.tbl i 1).2 = tbl at *
  rw [FrameText.next, if_pos hc]
  cases ht : t.rest with
  | nil =>
      rw [ht] at hread
      have hnext : f.next w = (⟨f.fd, 0x0a, true⟩, w.setTbl tbl) := by
        rw [FrameFile.next, if_pos hf, h.fd, hread]
        rfl
      rw [hnext]
      exact ⟨tbl, rfl, hother, h.fd, rfl, rfl, fun _ ↦ rfl, nofun⟩
  | cons b rest =>
      rw [ht] at hread hopen' hle hrest
      have hnext : f.next w = (⟨f.fd, b, f.eof⟩, w.setTbl tbl) := by
        rw [FrameFile.next, if_pos hf, h.fd, hread]
        rfl
      rw [hnext]
      refine ⟨tbl, rfl, hother, h.fd, rfl, h.eof, fun heof' ↦ ?_, fun _ ↦ ?_⟩
      · exact absurd heof' (by rw [heof]; decide)
      · refine ⟨inode, pos + 1, hopen', hinode, hlen, hle, ?_⟩
        rw [← List.drop_drop, World.setTbl_img, hrest]
        rfl

/-- **The end of a row.** -/
theorem Reads.endRow (h : f.Reads w i t) :
    ∃ tbl, (f.endRow w).2 = w.setTbl tbl ∧ (∀ j, j ≠ i → tbl j = w.tbl j) ∧
      (f.endRow w).1.Reads (w.setTbl tbl) i t.endRow := by
  cases heof : t.eof with
  | true =>
      have hend : f.endRow w = (⟨f.fd, 0x0a, f.eof⟩, w.setTbl (FdArray.close w.tbl f.fd).2) :=
        if_pos (h.eof.trans heof)
      rw [hend]
      refine ⟨_, rfl, fun j hj ↦ ?_, h.fd, ?_, h.eof, fun _ ↦ ?_, fun hlive ↦ ?_⟩
      · rw [h.fd, FdArray.close]
        split
        · rfl
        · split
          · rfl
          · exact Function.update_of_ne (by omega) _ _
      · exact (if_pos heof).symm
      · exact if_pos heof
      · exact absurd (heof.symm.trans hlive) (by decide)
  | false =>
      have hend : f.endRow w = (⟨f.fd, 0x30, f.eof⟩, w) :=
        if_neg (by rw [h.eof, heof]; decide)
      rw [hend]
      refine ⟨w.tbl, rfl, fun _ _ ↦ rfl, h.fd, ?_, h.eof, fun hdead ↦ ?_, fun _ ↦ h.opened heof⟩
      · exact (if_neg (by rw [heof]; decide)).symm
      · exact absurd (heof.symm.trans hdead) (by decide)

/-- Both files take a step, one after the other. -/
theorem Reads.both {op : FrameFile → World → FrameFile × World} {top : FrameText → FrameText}
    (hop : ∀ {f : FrameFile} {w : World} {i : Nat} {t : FrameText}, f.Reads w i t →
      ∃ tbl, (op f w).2 = w.setTbl tbl ∧ (∀ j, j ≠ i → tbl j = w.tbl j) ∧
        (op f w).1.Reads (w.setTbl tbl) i (top t))
    {f0 f1 : FrameFile} {j : Nat} {t0 t1 : FrameText} (hij : i ≠ j) (h0 : f0.Reads w i t0)
    (h1 : f1.Reads w j t1) :
    ∃ tbl, (op f1 (op f0 w).2).2 = w.setTbl tbl ∧ (op f0 w).1.Reads (w.setTbl tbl) i (top t0) ∧
      (op f1 (op f0 w).2).1.Reads (w.setTbl tbl) j (top t1) := by
  obtain ⟨tbl, hw, hother, h0'⟩ := hop h0
  obtain ⟨tbl', hw', hother', h1'⟩ := hop (h1.of_tbl (hother j hij.symm))
  rw [World.setTbl_setTbl] at hw' h1'
  rw [hw]
  exact ⟨tbl', hw', h0'.of_tbl (hother' i hij), h1'⟩

end FrameFile

namespace Frames

/-- The state behind some calls. -/
def addAll (blinks : List (Mp1BlinkStruct (BitVec 32))) (fish : Fish) : Fish :=
  blinks.foldl (fun fish user ↦ (fish.mp1IoctlAdd user).2) fish

theorem addAll_append (xs ys : List (Mp1BlinkStruct (BitVec 32))) (fish : Fish) :
    addAll (xs ++ ys) fish = addAll ys (addAll xs fish) := List.foldl_append

/-- The descriptors and characters of the two files. -/
structure Sides (s : Frames) (w : World) (i j : Nat) (t0 t1 : FrameText) : Prop where
  world : ∃ tbl, s.world = w.setTbl tbl
  f0 : s.f0.Reads s.world i t0
  f1 : s.f1.Reads s.world j t1

variable {s : Frames} {w : World} {i j : Nat} {t0 t1 : FrameText}

/-- What a row has in a column: nothing but a blank behind its end. -/
theorem getD_newline {l : List UInt8} (hl : 0x0a ∉ l) (k : Nat) :
    l.getD k 0x0a = 0x0a ∧ l.length ≤ k ∧ l.getD k 0x20 = 0x20 ∨
      l.getD k 0x0a ≠ 0x0a ∧ k < l.length ∧ l.getD k 0x20 = l.getD k 0x0a := by
  rcases Nat.lt_or_ge k l.length with hk | hk
  · right
    rw [List.getD_eq_getElem _ _ hk, List.getD_eq_getElem _ _ hk]
    exact ⟨fun heq ↦ hl (heq ▸ List.getElem_mem hk), hk, rfl⟩
  · left
    rw [List.getD_eq_default _ _ hk, List.getD_eq_default _ _ hk]
    exact ⟨rfl, hk, rfl⟩

/-- The test and the characters of a round are those of the cell. -/
theorem cellBlink_eq {l0 l1 : List UInt8} (h0 : 0x0a ∉ l0) (h1 : 0x0a ∉ l1)
    (junk : Mp1BlinkStruct (BitVec 32)) (row col : Nat) :
    cellBlink junk row l0 l1 col =
      if (l0.getD col 0x0a ≠ 0x20 ∧ l0.getD col 0x0a ≠ 0x0a) ∨
          (l1.getD col 0x0a ≠ 0x20 ∧ l1.getD col 0x0a ≠ 0x0a) then
        some (frameBlink junk row col (l0.getD col 0x0a) (l1.getD col 0x0a))
      else none := by
  have h0' := getD_newline h0 col
  have h1' := getD_newline h1 col
  rw [cellBlink]
  generalize l0.getD col 0x20 = c0, l1.getD col 0x20 = c1 at *
  generalize l0.getD col 0x0a = d0, l1.getD col 0x0a = d1 at *
  rcases h0' with ⟨rfl, -, rfl⟩ | ⟨hc0, -, rfl⟩ <;>
    rcases h1' with ⟨rfl, -, rfl⟩ | ⟨hc1, -, rfl⟩ <;> simp [frameBlink, *]

/-- **A round of the inner loop.** -/
theorem Sides.cell (h : s.Sides w i j t0 t1) (hij : i ≠ j) (junk : Mp1BlinkStruct (BitVec 32))
    (row : Nat) :
    ∃ s', s'.Sides w i j t0.next t1.next ∧ s'.fish = s.fish ∧
      Frames.cell junk row s =
        if t0.next.c = 0x0a ∧ t1.next.c = 0x0a then .inl s'
        else .inr { s' with
          fish := if (t0.next.c ≠ 0x20 ∧ t0.next.c ≠ 0x0a) ∨
              (t1.next.c ≠ 0x20 ∧ t1.next.c ≠ 0x0a) then
              (s.fish.mp1IoctlAdd (frameBlink junk row s.col t0.next.c t1.next.c)).2
            else s.fish
          col := s.col + 1 } := by
  obtain ⟨tbl₀, hw₀⟩ := h.world
  obtain ⟨tbl, hw, h0, h1⟩ := FrameFile.Reads.both FrameFile.Reads.next hij h.f0 h.f1
  rw [← hw] at h0 h1
  refine ⟨{ s with
    f0 := (s.f0.next s.world).1
    f1 := (s.f1.next (s.f0.next s.world).2).1
    world := (s.f1.next (s.f0.next s.world).2).2 }, ⟨⟨tbl, ?_⟩, h0, h1⟩, rfl, ?_⟩
  · dsimp only
    rw [hw, hw₀, World.setTbl_setTbl]
  · rw [Frames.cell]
    dsimp only
    rw [h0.c, h1.c]

/-- **The inner loop** makes the calls for a row, and ends behind it. -/
theorem Sides.cells (h : s.Sides w i j t0 t1) (hij : i ≠ j) (h0 : t0.AtRow) (h1 : t1.AtRow)
    (hcol : s.col = 0) (junk : Mp1BlinkStruct (BitVec 32)) (row : Nat) :
    ∃ s' n, n = max (t0.rows.headD []).length (t1.rows.headD []).length ∧
      rounds (Frames.cell junk row) (n + 1) s = .inl s' ∧
      s'.Sides w i j (FrameText.next^[n + 1] t0) (FrameText.next^[n + 1] t1) ∧
      s'.fish = addAll (rowBlinks junk row (t0.rows.headD []) (t1.rows.headD [])) s.fish := by
  obtain ⟨hline0, hchar0, -⟩ := h0.row
  obtain ⟨hline1, hchar1, -⟩ := h1.row
  generalize t0.rows.headD [] = l0 at *
  generalize t1.rows.headD [] = l1 at *
  let n := max l0.length l1.length
  let I (k : Nat) (a : Frames) : Prop :=
    a.Sides w i j (FrameText.next^[k] t0) (FrameText.next^[k] t1) ∧ a.col = k ∧
      a.fish = addAll ((List.range k).filterMap (cellBlink junk row l0 l1)) s.fish
  have hround (k : Nat) (a : Frames) (ha : I k a) :
      ∃ s', s'.Sides w i j (FrameText.next^[k + 1] t0) (FrameText.next^[k + 1] t1) ∧
        s'.fish = a.fish ∧ Frames.cell junk row a =
          if l0.getD k 0x0a = 0x0a ∧ l1.getD k 0x0a = 0x0a then .inl s'
          else .inr { s' with
            fish := addAll (cellBlink junk row l0 l1 k).toList a.fish
            col := k + 1 } := by
    obtain ⟨hsides, hk, -⟩ := ha
    have hnext (t : FrameText) : (FrameText.next^[k] t).next = FrameText.next^[k + 1] t :=
      (Function.iterate_succ_apply' _ _ _).symm
    obtain ⟨s', hsides', hfish, hcell⟩ := hsides.cell hij junk row
    rw [hnext, hnext] at hsides'
    rw [hnext, hnext, hchar0, hchar1, hk] at hcell
    refine ⟨s', hsides', hfish, hcell.trans ?_⟩
    rw [cellBlink_eq hline0 hline1]
    split
    · rfl
    · split <;> rfl
  have hmore (k : Nat) (hk : k < n) (a : Frames) (ha : I k a) :
      ∃ a', Frames.cell junk row a = .inr a' ∧ I (k + 1) a' := by
    obtain ⟨s', hsides, hfish, hcell⟩ := hround k a ha
    have hnot : ¬ (l0.getD k 0x0a = 0x0a ∧ l1.getD k 0x0a = 0x0a) := by
      rcases getD_newline hline0 k with ⟨-, hlen, -⟩ | ⟨hc, -⟩
      · rcases getD_newline hline1 k with ⟨-, hlen', -⟩ | ⟨hc', -⟩
        · omega
        · exact fun hboth ↦ hc' hboth.2
      · exact fun hboth ↦ hc hboth.1
    rw [if_neg hnot] at hcell
    refine ⟨_, hcell, ⟨hsides.world, hsides.f0, hsides.f1⟩, rfl, ?_⟩
    dsimp only
    rw [List.range_succ, List.filterMap_append, addAll_append, ← ha.2.2]
    rw [List.filterMap_cons, List.filterMap_nil]
    cases cellBlink junk row l0 l1 k <;> rfl
  let Q (s' : Frames) : Prop :=
    s'.Sides w i j (FrameText.next^[n + 1] t0) (FrameText.next^[n + 1] t1) ∧
      s'.fish = addAll (rowBlinks junk row l0 l1) s.fish
  have hdone (a : Frames) (ha : I n a) : ∃ s', Frames.cell junk row a = .inl s' ∧ Q s' := by
    obtain ⟨s', hsides, hfish, hcell⟩ := hround n a ha
    have hend : l0.getD n 0x0a = 0x0a ∧ l1.getD n 0x0a = 0x0a :=
      ⟨List.getD_eq_default _ _ (Nat.le_max_left _ _),
        List.getD_eq_default _ _ (Nat.le_max_right _ _)⟩
    rw [if_pos hend] at hcell
    exact ⟨s', hcell, hsides, hfish.trans ha.2.2⟩
  obtain ⟨s', hrounds, hs'⟩ := exists_rounds n hmore hdone ⟨h, hcol, rfl⟩
  exact ⟨s', n, rfl, hrounds, hs'⟩

/-- **A round of the outer loop.** -/
theorem Sides.row (h : s.Sides w i j t0 t1) (hij : i ≠ j) (h0 : t0.AtRow) (h1 : t1.AtRow)
    (junk : Mp1BlinkStruct (BitVec 32)) {n : Nat} (row : Nat)
    (hn : (t0.rows.headD []).length < n ∧ (t1.rows.headD []).length < n)
    (hmore : t0.rows ≠ [] ∨ t1.rows ≠ []) :
    ∃ s' t0' t1', Frames.row junk n (row, s) = .inr (row + 1, s') ∧ s'.Sides w i j t0' t1' ∧
      t0'.AtRow ∧ t1'.AtRow ∧ t0'.rows = t0.rows.tail ∧ t1'.rows = t1.rows.tail ∧
      s'.fish = addAll (rowBlinks junk row (t0.rows.headD []) (t1.rows.headD [])) s.fish := by
  have hlive : ¬ (s.f0.eof = true ∧ s.f1.eof = true) := by
    rw [h.f0.eof, h.f1.eof, ← FrameText.rows_eq_nil_iff, ← FrameText.rows_eq_nil_iff]
    exact fun hboth ↦ hmore.elim (· hboth.1) (· hboth.2)
  have hstart : Sides { s with col := 0 } w i j t0 t1 := ⟨h.world, h.f0, h.f1⟩
  obtain ⟨s', m, hm, hrounds, hsides, hfish⟩ := hstart.cells hij h0 h1 rfl junk row
  obtain ⟨tbl₀, hw₀⟩ := hsides.world
  obtain ⟨tbl, hw, hf0, hf1⟩ :=
    FrameFile.Reads.both FrameFile.Reads.endRow hij hsides.f0 hsides.f1
  rw [← hw] at hf0 hf1
  have hworld : (s'.f1.endRow (s'.f0.endRow s'.world).2).2 = w.setTbl tbl := by
    rw [hw, hw₀, World.setTbl_setTbl]
  refine ⟨{ s' with
    f0 := (s'.f0.endRow s'.world).1
    f1 := (s'.f1.endRow (s'.f0.endRow s'.world).2).1
    world := (s'.f1.endRow (s'.f0.endRow s'.world).2).2 },
    (FrameText.next^[m + 1] t0).endRow, (FrameText.next^[m + 1] t1).endRow, ?_,
    ⟨⟨tbl, hworld⟩, hf0, hf1⟩, FrameText.atRow_endRow _, FrameText.atRow_endRow _,
    h0.row.2.2 m (by omega), h1.row.2.2 m (by omega), hfish⟩
  rw [Frames.row]
  dsimp only
  rw [if_neg hlive, rounds_mono hrounds (by omega)]

theorem headD_drop {A : Type} (l : List A) (k : Nat) (d : A) : (l.drop k).headD d = l.getD k d := by
  rw [List.headD_eq_head?_getD, List.head?_drop, List.getD_eq_getElem?_getD]

/-- **The outer loop** makes the calls for all rows, and ends behind the longer text. -/
theorem Sides.rows (h : s.Sides w i j t0 t1) (hij : i ≠ j) (h0 : t0.AtRow) (h1 : t1.AtRow)
    (junk : Mp1BlinkStruct (BitVec 32)) {n : Nat} (hn : ∀ l ∈ t0.rows ++ t1.rows, l.length < n)
    (hpos : 0 < n) :
    ∃ b, rounds (Frames.row junk n) (max t0.rows.length t1.rows.length + 1) (0, s) = .inl b ∧
      ∃ s' tbl, b = some s' ∧ s'.world = w.setTbl tbl ∧
        s'.fish = addAll (frameBlinks junk t0.rows t1.rows) s.fish := by
  let calls (row : Nat) := rowBlinks junk row (t0.rows.getD row []) (t1.rows.getD row [])
  -- in front of row `k`
  let I (k : Nat) (a : Nat × Frames) : Prop :=
    a.1 = k ∧ a.2.fish = addAll ((List.range k).flatMap calls) s.fish ∧
      ∃ u0 u1, a.2.Sides w i j u0 u1 ∧ u0.AtRow ∧ u1.AtRow ∧ u0.rows = t0.rows.drop k ∧
        u1.rows = t1.rows.drop k
  refine exists_rounds (I := I) _ ?_ ?_ ⟨rfl, rfl, t0, t1, h, h0, h1, rfl, rfl⟩
  · rintro k hk ⟨row, a⟩ ⟨hrow, hfish, u0, u1, hsides, hu0, hu1, hrows0, hrows1⟩
    obtain rfl : row = k := hrow
    have hlen (l : List (List UInt8)) (hl : ∀ x ∈ l, x ∈ t0.rows ++ t1.rows) :
        (l.getD row []).length < n := by
      rcases Nat.lt_or_ge row l.length with hlt | hge
      · rw [List.getD_eq_getElem _ _ hlt]
        exact hn _ (hl _ (List.getElem_mem hlt))
      · rw [List.getD_eq_default _ _ hge]
        exact hpos
    obtain ⟨s', u0', u1', hround, hsides', hu0', hu1', hrows0', hrows1', hfish'⟩ :=
      hsides.row (n := n) hij hu0 hu1 junk row (by
        rw [hrows0, hrows1, headD_drop, headD_drop]
        exact ⟨hlen _ fun x hx ↦ List.mem_append_left _ hx,
          hlen _ fun x hx ↦ List.mem_append_right _ hx⟩) (by
        rw [hrows0, hrows1, ne_eq, ne_eq, List.drop_eq_nil_iff, List.drop_eq_nil_iff]
        omega)
    refine ⟨_, hround, rfl, ?_, u0', u1', hsides', hu0', hu1', ?_, ?_⟩
    · rw [hfish', hrows0, hrows1, headD_drop, headD_drop, List.range_succ, List.flatMap_append,
        addAll_append, ← hfish, List.flatMap_singleton]
    · rw [hrows0', hrows0, List.tail_drop]
    · rw [hrows1', hrows1, List.tail_drop]
  · rintro ⟨row, a⟩ ⟨-, hfish, u0, u1, hsides, -, -, hrows0, hrows1⟩
    obtain ⟨tbl, hworld⟩ := hsides.world
    have hend : a.f0.eof = true ∧ a.f1.eof = true := by
      rw [hsides.f0.eof, hsides.f1.eof, ← FrameText.rows_eq_nil_iff, ← FrameText.rows_eq_nil_iff,
        hrows0, hrows1, List.drop_eq_nil_iff, List.drop_eq_nil_iff]
      exact ⟨Nat.le_max_left _ _, Nat.le_max_right _ _⟩
    exact ⟨some a, if_pos hend, a, tbl, rfl, hworld, hfish⟩

end Frames

/-! ## The two files -/

/-- `open` of a regular file, when a descriptor is free. -/
theorem World.exists_openFd {w : World} {filename : Bytes} {d : Dentry}
    (hd : w.img.readDentryByName filename = some d) (htype : d.fileType = 2)
    (hfree : ∃ i, 2 ≤ i ∧ i < fdArraySize ∧ (w.tbl i).flags = 0) :
    ∃ (i : Nat) (tbl : FdArray), w.openFd filename = ((i : Int), w.setTbl tbl) ∧
      (w.tbl i).flags = 0 ∧ FdArray.OpenAt tbl i d.inodeNum 0 ∧
      ∀ j, j ≠ i → tbl j = w.tbl j := by
  obtain ⟨i, hi⟩ : ∃ i, w.tbl.firstClosed = some i := by
    obtain ⟨j, hj, hlt, hflags⟩ := hfree
    rw [← Option.isSome_iff_exists, FdArray.firstClosed, List.find?_isSome]
    exact ⟨j, List.mem_range'_1.mpr ⟨hj, by omega⟩, beq_iff_eq.mpr hflags⟩
  have hopen : FdArray.openFd w.img w.tbl filename =
      ((i : Int), w.tbl.setOpen i d.inodeNum .file) := by
    simp only [FdArray.openFd, hi, hd, htype]
  refine ⟨i, w.tbl.setOpen i d.inodeNum .file, ?_, (FdArray.firstClosed_eq_some.mp hi).2.2.1,
    FdArray.OpenAt.openFd hd htype hopen, fun j hj ↦ Function.update_of_ne hj _ _⟩
  rw [World.openFd, hopen]
  rfl

/-- A regular file of a well-formed image that has just been opened. -/
theorem FrameFile.reads_start {w : World} (hwf : w.img.WellFormed) {filename : Bytes} {d : Dentry}
    (hd : w.img.readDentryByName filename = some d) (htype : d.fileType = 2) {i : Nat}
    (hopen : FdArray.OpenAt w.tbl i d.inodeNum 0) :
    FrameFile.Reads ⟨i, 0x30, false⟩ w i ⟨0x30, false, w.img.contents d.inodeNum⟩ := by
  obtain ⟨-, e, he, -, -, het, hei⟩ := Image.exists_entry_of_readDentryByName hd
  have hregular : w.img.fileType e = 2 := het.symm.trans htype
  refine ⟨rfl, rfl, rfl, nofun, fun _ ↦ ⟨d.inodeNum, 0, hopen, ?_, ?_, Nat.zero_le _, rfl⟩⟩
  · rw [hei]
    exact Nat.le_of_lt (hwf.inodeNum_lt e he hregular)
  · rw [hei]
    exact hwf.length_le e he hregular

/-- **What `add_frames` does** with two files of a well-formed image, when two descriptors are free:
it returns, and the calls of `mp1_ioctl` that it has made are those for the cells of their rows,
whatever lengths these have. -/
theorem add_frames_blinks (w : World) (hwf : w.img.WellFormed) {file0 file1 : Bytes}
    {d0 d1 : Dentry} (hd0 : w.img.readDentryByName file0 = some d0) (htype0 : d0.fileType = 2)
    (hd1 : w.img.readDentryByName file1 = some d1) (htype1 : d1.fileType = 2)
    (hfree : ∃ i j, i ≠ j ∧ (2 ≤ i ∧ i < fdArraySize ∧ (w.tbl i).flags = 0) ∧
      2 ≤ j ∧ j < fdArraySize ∧ (w.tbl j).flags = 0)
    (junk : Mp1BlinkStruct (BitVec 32)) (fish : Fish) :
    ∃ N, ∀ n, N ≤ n → ∃ s tbl, addFrames n junk file0 file1 w fish = some (.inr s) ∧
      s.world = w.setTbl tbl ∧
      s.fish = Frames.addAll (frameBlinks junk ((w.img.contents d0.inodeNum).splitOn 0x0a)
        ((w.img.contents d1.inodeNum).splitOn 0x0a)) fish := by
  obtain ⟨i', j', hij', hi', hj'⟩ := hfree
  obtain ⟨i, tbl₀, hopen0, hi, hat0, hother0⟩ := World.exists_openFd hd0 htype0 ⟨i', hi'⟩
  have hfree' : ∃ k, 2 ≤ k ∧ k < fdArraySize ∧ (tbl₀ k).flags = 0 := by
    by_cases heq : i' = i
    · refine ⟨j', hj'.1, hj'.2.1, ?_⟩
      rw [hother0 j' (heq ▸ hij'.symm), hj'.2.2]
    · refine ⟨i', hi'.1, hi'.2.1, ?_⟩
      rw [hother0 i' heq, hi'.2.2]
  obtain ⟨j, tbl₁, hopen1, hj, hat1, hother1⟩ :=
    World.exists_openFd (w := w.setTbl tbl₀) hd1 htype1 hfree'
  have hij : i ≠ j := by
    rintro rfl
    exact absurd (hat0.flags.symm.trans hj) (by decide)
  rw [World.setTbl_setTbl] at hopen1
  have hsides : Frames.Sides
      ⟨⟨i, 0x30, false⟩, ⟨j, 0x30, false⟩, 0, w.setTbl tbl₁, fish⟩ w i j
      ⟨0x30, false, w.img.contents d0.inodeNum⟩ ⟨0x30, false, w.img.contents d1.inodeNum⟩ :=
    ⟨⟨tbl₁, rfl⟩,
      FrameFile.reads_start (w := w.setTbl tbl₁) hwf hd0 htype0 (hat0.of_eq (hother1 i hij)),
      FrameFile.reads_start (w := w.setTbl tbl₁) hwf hd1 htype1 hat1⟩
  let rows0 := (w.img.contents d0.inodeNum).splitOn 0x0a
  let rows1 := (w.img.contents d1.inodeNum).splitOn 0x0a
  let width := ((rows0 ++ rows1).map List.length).sum
  have hwidth (l : List UInt8) (hl : l ∈ rows0 ++ rows1) : l.length ≤ width :=
    List.single_le_sum (fun _ _ ↦ Nat.zero_le _) _ (List.mem_map_of_mem hl)
  refine ⟨max width (max rows0.length rows1.length) + 1, fun n hn ↦ ?_⟩
  obtain ⟨b, hrounds, s, tbl, rfl, hworld, hfish⟩ := hsides.rows hij rfl rfl junk (n := n)
    (fun l hl ↦ (hwidth l hl).trans_lt (by omega)) (by omega)
  refine ⟨s, tbl, ?_, hworld, hfish⟩
  have hneg (k : Nat) : ¬ (k : Int) < 0 := Int.not_lt.mpr (Int.natCast_nonneg k)
  have hle : max rows0.length rows1.length + 1 ≤ n := by omega
  simp only [addFrames, hopen0, hopen1, if_neg (hneg _), rounds_mono hrounds hle, Option.map_some]

/-- Two files, `f` with a line and a piece of one, and `g` with a single character. -/
def framesImage : Image where
  byte a :=
    if a = 0 ∨ a = 4 ∨ a = 8 then 2
    else if a = 64 then 0x66
    else if a = 128 then 0x67
    else if a = 96 ∨ a = 160 then 2
    else if a = 164 ∨ a = 8192 ∨ a = 8196 then 1
    else if a = 4096 then 3
    else if a = 12288 then 0x6f
    else if a = 12289 then 0x0a
    else if a = 12290 then 0x78
    else if a = 16384 then 0x2e
    else 0

theorem framesImage_wellFormed : framesImage.WellFormed where
  inodeNum_lt := by decide
  length_le := by decide
  blockNum_lt i hi ht k hk := by
    have hsize : ∀ i, i < 2 → framesImage.inodeLength (framesImage.inodeNum i) ≤ 3 := by decide
    have hblock : ∀ i, i < 2 → framesImage.dataBlockNum (framesImage.inodeNum i) 0 <
        framesImage.numDb := by decide
    have hlen := hsize i hi
    obtain rfl : k = 0 := by
      simp only [dataBlockSize] at hk
      omega
    exact hblock i hi

/-- The first row of `f` is as long as the one of `g`, and the second has no other beside it. -/
theorem add_frames_blinks_two :
    ∃ N, ∀ n, N ≤ n → ∃ s tbl,
      addFrames n ⟨0, 0, 0, 0, 0, 0, 0, 0⟩ (Bytes.ofList [0x66]) (Bytes.ofList [0x67])
        (World.fresh framesImage fun _ ↦ 0) (Fish.start fun _ ↦ 0) = some (.inr s) ∧
      s.world = (World.fresh framesImage fun _ ↦ 0).setTbl tbl ∧
      s.fish = Frames.addAll (frameBlinks ⟨0, 0, 0, 0, 0, 0, 0, 0⟩
        ((framesImage.contents 0).splitOn 0x0a) ((framesImage.contents 1).splitOn 0x0a))
        (Fish.start fun _ ↦ 0) := by
  have hf : framesImage.readDentryByName (Bytes.ofList [0x66]) =
      some ⟨strncpy (Bytes.ofList [0x66]) fileNameSize, 2, 0⟩ := by decide
  have hg : framesImage.readDentryByName (Bytes.ofList [0x67]) =
      some ⟨strncpy (Bytes.ofList [0x67]) fileNameSize, 2, 1⟩ := by decide
  exact add_frames_blinks (World.fresh framesImage fun _ ↦ 0) framesImage_wellFormed hf rfl hg rfl
    ⟨2, 3, by decide, by decide, by decide⟩ _ _

end Illinix
