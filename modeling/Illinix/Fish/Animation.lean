import Mathlib.Data.List.ProdSigma
import Illinix.Fish.Frames
import Illinix.Fish.Period

/-!
# The two pictures

What `add_frames` adds and what the tasklet does with it, together: in the right half of the screen
the two pictures take turns, each for 15 ticks (`frames_alternate`).  A cell that is blank in both
of them keeps what it had, for no call draws where there is no entry (`Lacks`).
-/

namespace Illinix

open Base

namespace Fish

variable {s s' : Fish} {l : List BlinkSlot}

/-! ## A cell without an entry -/

/-- A proper list, with no entry for a location. -/
def Lacks (s : Fish) (location : BitVec 16) : Prop :=
  ∃ l, s.IsList l ∧ ∀ i ∈ l, (s.blinkArray i).location ≠ 0 ∧ (s.blinkArray i).location ≠ location

theorem charAt_foldl_blink {location : BitVec 16} {l : List BlinkSlot}
    (h : ∀ i ∈ l, (s.blinkArray i).location ≠ location) :
    (l.foldl blink s).charAt location = s.charAt location := by
  induction l generalizing s with
  | nil => rfl
  | cons i l ih =>
      rw [List.forall_mem_cons] at h
      have hshape := sameShape_blink s i
      rw [List.foldl_cons, ih fun j hj ↦ by rw [hshape.location]; exact h.2 j hj]
      refine (draws_blink s i).cell location ?_
      rw [hshape.location]
      exact h.1.symm

/-- **Nothing is drawn where there is no entry.** -/
theorem Lacks.step {location : BitVec 16} (hne : location ≠ 0) (h : s.Lacks location)
    {c : FishCall} (hc : c.Avoids location) (hs : s.next c = some s') :
    s'.Lacks location ∧ s'.charAt location = s.charAt location := by
  obtain ⟨l, hl, hlacks⟩ := h
  have hmark : ∀ i ∈ l, (s.blinkArray i).location ≠ 0 := fun i hi ↦ (hlacks i hi).1
  have hkeep (hshape : s.SameShape s') : s'.Lacks location :=
    ⟨l, hshape.isList hl, fun i hi ↦ by rw [hshape.location]; exact hlacks i hi⟩
  rcases next_cases hl hs with rfl | ⟨user, i, rfl, hi, rfl⟩ | ⟨i, hi, rfl⟩ |
    ⟨arg, esi, edi, rfl, -, hedi, rfl⟩ | rfl
  · exact ⟨⟨l, hl, hlacks⟩, rfl⟩
  · have hil := notMem_of_mp1Malloc hmark i hi
    have hself := insertAt_self s i { user with status := 1, countdown := user.onLength }
    refine ⟨⟨i :: l, isList_insertAt hl hil _, ?_⟩, (draws_insertAt s i _).cell location ?_⟩
    · rw [List.forall_mem_cons, hself]
      refine ⟨hc, fun j hj ↦ ?_⟩
      have hji : j ≠ i := fun heq ↦ hil (heq ▸ hj)
      rw [insertAt_of_ne s _ hji]
      exact hlacks j hj
    · rw [hself]
      exact hc.2.symm
  · have hdraws := draws_mp1Free s (prior i none l) (s.link (some i)) i
    refine ⟨⟨l.erase i, isList_mp1Free hl hi, fun j hj ↦ ?_⟩, hdraws.cell location ?_⟩
    · obtain ⟨hji, hjl⟩ := hl.nodup.mem_erase_iff.mp hj
      rw [hdraws.entry j hji]
      exact hlacks j hjl
    · rw [mp1Free, modify_self]
      exact hne
  · have hshape := sameShape_syncCopy s esi edi
    refine ⟨hkeep hshape, (draws_syncCopy s esi edi).cell location ?_⟩
    rw [mp1FindHelper_eq hl, Option.some.injEq] at hedi
    rw [hshape.location]
    exact (hlacks edi (List.mem_of_find?_eq_some hedi)).2.symm
  · exact ⟨hkeep (sameShape_foldl_blink s l), charAt_foldl_blink fun i hi ↦ (hlacks i hi).2⟩

theorem Lacks.exec {location : BitVec 16} (hne : location ≠ 0) (h : s.Lacks location)
    {calls : List FishCall} (hcalls : ∀ c ∈ calls, c.Avoids location) :
    ∃ s', Base.exec next s calls = some s' ∧ s'.Lacks location ∧
      s'.charAt location = s.charAt location := by
  induction calls generalizing s with
  | nil => exact ⟨s, rfl, h, rfl⟩
  | cons c calls ih =>
      rw [List.forall_mem_cons] at hcalls
      obtain ⟨l, hl, hlacks⟩ := h
      obtain ⟨ret, s₁, hcall, -⟩ :=
        callSpec hl (notMem_of_mp1Malloc fun i hi ↦ (hlacks i hi).1) c
      have hs₁ : s.next c = some s₁ := by rw [next, hcall]; rfl
      obtain ⟨h₁, hchar⟩ := Lacks.step hne ⟨l, hl, hlacks⟩ hcalls.1 hs₁
      obtain ⟨s', hs', h', hchar'⟩ := ih h₁ hcalls.2
      exact ⟨s', exec_cons_eq_some.mpr ⟨s₁, hs₁, hs'⟩, h', hchar'.trans hchar⟩

/-! ## Entries that are left -/

/-- At most `n` entries are in use. -/
def Uses (s : Fish) (n : Nat) : Prop :=
  ∃ l : List BlinkSlot, l.length ≤ n ∧ ∀ i, i ∉ l → (s.blinkArray i).location = 0

theorem Uses.exists_mp1Malloc {n : Nat} (h : s.Uses n) (hn : n < 80 * 25) :
    ∃ i, s.mp1Malloc = some i := by
  obtain ⟨l, hlen, hfree⟩ := h
  refine Fish.exists_mp1Malloc ?_
  by_contra hall
  have hmem (i : BlinkSlot) : i ∈ l := by_contra fun hi ↦ hall ⟨i, hfree i hi⟩
  have hcard := (List.nodup_finRange (80 * 25)).subperm fun i (_ : i ∈ _) ↦ hmem i
  have hle := hcard.length_le
  rw [List.length_finRange] at hle
  omega

theorem Uses.add {n : Nat} (h : s.Uses n) (user : Mp1BlinkStruct (BitVec 32)) :
    (s.mp1IoctlAdd user).2.Uses (n + 1) := by
  obtain ⟨l, hlen, hfree⟩ := h
  rcases mp1IoctlAdd_cases s user with hfail | ⟨i, -, hadd⟩
  · rw [hfail]
    exact ⟨l, Nat.le_succ_of_le hlen, hfree⟩
  · rw [hadd]
    refine ⟨i :: l, Nat.succ_le_succ hlen, fun j hj ↦ ?_⟩
    rw [List.mem_cons, not_or] at hj
    dsimp only
    rw [insertAt_of_ne s _ hj.1]
    exact hfree j hj.2

end Fish

namespace Frames

/-- The calls of a run. -/
theorem exec_adds (blinks : List (Mp1BlinkStruct (BitVec 32))) (s : Fish) :
    exec Fish.next s (blinks.map .add) = some (addAll blinks s) := by
  induction blinks generalizing s with
  | nil => rfl
  | cons user blinks ih => exact ih (s.mp1IoctlAdd user).2

theorem uses_addAll (blinks : List (Mp1BlinkStruct (BitVec 32))) {s : Fish} {n : Nat}
    (h : s.Uses n) : (addAll blinks s).Uses (n + blinks.length) := by
  induction blinks generalizing s n with
  | nil => exact h
  | cons user blinks ih =>
      have hrest := ih (h.add user)
      rwa [Nat.add_assoc, Nat.add_comm 1] at hrest

end Frames

/-! ## The grid -/

/-- The places of the right half of the screen. -/
def frameGrid : List (Nat × Nat) := (List.range 25).product (List.range 40)

/-- The location of a place of the right half. -/
def frameLocation (row col : Nat) : BitVec 16 := BitVec.ofNat 16 (row * 80 + col + 40)

theorem toNat_frameLocation {row col : Nat} (hrow : row < 25) (hcol : col < 40) :
    (frameLocation row col).toNat = row * 80 + col + 40 := by
  rw [frameLocation, BitVec.toNat_ofNat, Nat.mod_eq_of_lt (by omega)]

theorem mem_frameGrid {row col : Nat} : (row, col) ∈ frameGrid ↔ row < 25 ∧ col < 40 :=
  List.mem_product.trans (and_congr List.mem_range List.mem_range)

/-- A longer range, with nothing in the rest. -/
theorem flatMap_range_of_le {A : Type} {f : Nat → List A} {m n : Nat} (hle : m ≤ n)
    (h : ∀ k, m ≤ k → f k = []) : (List.range m).flatMap f = (List.range n).flatMap f := by
  obtain ⟨d, rfl⟩ := Nat.exists_eq_add_of_le hle
  rw [List.range_add, List.flatMap_append, List.flatMap_map,
    List.flatMap_eq_nil_iff.mpr fun k _ ↦ h (m + k) (Nat.le_add_right m k), List.append_nil]

/-- The cell of a place. -/
def gridBlink (junk : Mp1BlinkStruct (BitVec 32)) (rows0 rows1 : List (List UInt8))
    (place : Nat × Nat) : Option (Mp1BlinkStruct (BitVec 32)) :=
  cellBlink junk place.1 (rows0.getD place.1 []) (rows1.getD place.1 []) place.2

variable {rows0 rows1 : List (List UInt8)} {junk : Mp1BlinkStruct (BitVec 32)}

theorem gridBlink_eq_some {place : Nat × Nat} {user : Mp1BlinkStruct (BitVec 32)}
    (h : gridBlink junk rows0 rows1 place = some user) :
    user.location = frameLocation place.1 place.2 := by
  rw [gridBlink, cellBlink, Option.ite_none_right_eq_some, Option.some.injEq] at h
  rw [← h.2]
  rfl

/-- The calls of pictures that fit are those for the places of the right half. -/
theorem frameBlinks_eq (hrows : max rows0.length rows1.length ≤ 25)
    (hcols : ∀ l ∈ rows0 ++ rows1, l.length ≤ 40) :
    frameBlinks junk rows0 rows1 = frameGrid.filterMap (gridBlink junk rows0 rows1) := by
  have hlen (rows : List (List UInt8)) (h : ∀ l ∈ rows, l ∈ rows0 ++ rows1) (row : Nat) :
      (rows.getD row []).length ≤ 40 := by
    rcases Nat.lt_or_ge row rows.length with hlt | hge
    · rw [List.getD_eq_getElem _ _ hlt]
      exact hcols _ (h _ (List.getElem_mem hlt))
    · rw [List.getD_eq_default _ _ hge]
      exact Nat.zero_le 40
  have hrow (row : Nat) : rowBlinks junk row (rows0.getD row []) (rows1.getD row []) =
      ((List.range 40).map (Prod.mk row)).filterMap (gridBlink junk rows0 rows1) := by
    rw [rowBlinks, List.filterMap_map, List.filterMap_eq_flatMap_toList,
      List.filterMap_eq_flatMap_toList]
    refine flatMap_range_of_le ?_ fun col hcol ↦ ?_
    · exact max_le (hlen rows0 (fun l ↦ List.mem_append_left _) row)
        (hlen rows1 (fun l ↦ List.mem_append_right _) row)
    · rw [cellBlink, List.getD_eq_default _ _ (le_of_max_le_left hcol),
        List.getD_eq_default _ _ (le_of_max_le_right hcol), if_neg (by simp)]
      rfl
  rw [frameBlinks, frameGrid, List.product, List.filterMap_flatMap]
  simp only [← hrow]
  refine flatMap_range_of_le hrows fun row hge ↦ ?_
  rw [List.getD_eq_default _ _ (le_of_max_le_left hge),
    List.getD_eq_default _ _ (le_of_max_le_right hge)]
  rfl

/-- Different places have different locations. -/
theorem frameLocation_inj {p q : Nat × Nat} (hp : p ∈ frameGrid) (hq : q ∈ frameGrid)
    (h : frameLocation p.1 p.2 = frameLocation q.1 q.2) : p = q := by
  obtain ⟨hrow, hcol⟩ := mem_frameGrid.mp hp
  obtain ⟨hrow', hcol'⟩ := mem_frameGrid.mp hq
  have heq := congrArg BitVec.toNat h
  rw [toNat_frameLocation hrow hcol, toNat_frameLocation hrow' hcol'] at heq
  refine Prod.ext ?_ ?_ <;> omega

theorem frameLocation_ne_zero {p : Nat × Nat} (hp : p ∈ frameGrid) :
    frameLocation p.1 p.2 ≠ 0 := by
  obtain ⟨hrow, hcol⟩ := mem_frameGrid.mp hp
  intro heq
  have hzero := congrArg BitVec.toNat heq
  rw [toNat_frameLocation hrow hcol] at hzero
  exact absurd hzero (by simp)

/-- The places before and behind a place. -/
theorem exists_places {p : Nat × Nat} (hp : p ∈ frameGrid) :
    ∃ g₁ g₂, frameGrid = g₁ ++ p :: g₂ ∧ g₁.length < 80 * 25 ∧
      ∀ q, q ∈ g₁ ∨ q ∈ g₂ → q ∈ frameGrid ∧ q ≠ p := by
  obtain ⟨g₁, g₂, hgrid⟩ := List.append_of_mem hp
  have hnodup : frameGrid.Nodup := List.nodup_range.product List.nodup_range
  have hlen : frameGrid.length = 25 * 40 := by
    rw [show frameGrid.length = _ from List.length_product _ _, List.length_range,
      List.length_range]
  rw [hgrid, List.nodup_append, List.nodup_cons] at hnodup
  rw [hgrid, List.length_append] at hlen
  refine ⟨g₁, g₂, hgrid, by omega, fun q hq ↦ ⟨?_, ?_⟩⟩
  · rw [hgrid, List.mem_append, List.mem_cons]
    exact hq.imp_right .inr
  · rintro rfl
    rcases hq with hq | hq
    · exact hnodup.2.2 q hq q List.mem_cons_self rfl
    · exact hnodup.2.1.1 hq

/-- The calls for places that are blank or other ones are not about a location. -/
theorem avoids_of_ne (junk : Mp1BlinkStruct (BitVec 32)) (rows0 rows1 : List (List UInt8))
    {p : Nat × Nat} (hp : p ∈ frameGrid) {places : List (Nat × Nat)}
    (hplaces : ∀ q ∈ places, q ∈ frameGrid ∧ (q = p → gridBlink junk rows0 rows1 p = none)) :
    ∀ c ∈ (places.filterMap (gridBlink junk rows0 rows1)).map FishCall.add,
      c.Avoids (frameLocation p.1 p.2) := by
  intro c hc
  obtain ⟨user, huser, rfl⟩ := List.mem_map.mp hc
  obtain ⟨q, hq, hblink⟩ := List.mem_filterMap.mp huser
  obtain ⟨hgrid, hother⟩ := hplaces q hq
  rw [FishCall.Avoids, gridBlink_eq_some hblink]
  refine ⟨frameLocation_ne_zero hgrid, fun heq ↦ ?_⟩
  obtain rfl := frameLocation_inj hgrid hp heq
  rw [hother rfl] at hblink
  exact absurd hblink (by simp)

theorem ticks_adds (blinks : List (Mp1BlinkStruct (BitVec 32))) :
    (blinks.map FishCall.add).countP FishCall.isTick = 0 := by
  induction blinks with
  | nil => rfl
  | cons user blinks ih => exact ih

namespace Fish

theorem lacks_start (video : Nat → BitVec 8) (location : BitVec 16) :
    (start video).Lacks location := ⟨[], .nil, fun _ hi ↦ nomatch hi⟩

theorem uses_start (video : Nat → BitVec 8) : (start video).Uses 0 :=
  ⟨[], Nat.le_refl 0, fun _ _ ↦ rfl⟩

end Fish

/-- A place that is blank in both pictures. -/
theorem lacks_of_gridBlink (video : Nat → BitVec 8) {p : Nat × Nat} (hp : p ∈ frameGrid)
    (h : gridBlink junk rows0 rows1 p = none) :
    let s := Frames.addAll (frameGrid.filterMap (gridBlink junk rows0 rows1)) (Fish.start video)
    s.Lacks (frameLocation p.1 p.2) ∧ s.charAt (frameLocation p.1 p.2) =
      (Fish.start video).charAt (frameLocation p.1 p.2) := by
  obtain ⟨s, hs, hlacks, hchar⟩ := (Fish.lacks_start video _).exec (frameLocation_ne_zero hp)
    (avoids_of_ne junk rows0 rows1 hp fun q hq ↦ ⟨hq, fun _ ↦ h⟩)
  rw [Frames.exec_adds, Option.some.injEq] at hs
  exact hs ▸ ⟨hlacks, hchar⟩

/-- A place that is not: one entry was added for it, for which there was room. -/
theorem blinks_of_gridBlink (video : Nat → BitVec 8) {p : Nat × Nat} (hp : p ∈ frameGrid)
    {user : Mp1BlinkStruct (BitVec 32)} (h : gridBlink junk rows0 rows1 p = some user) :
    ∃ l i, (Frames.addAll (frameGrid.filterMap (gridBlink junk rows0 rows1))
      (Fish.start video)).Blinks user 0 l i := by
  have hne := frameLocation_ne_zero hp
  have hloc := gridBlink_eq_some h
  have hlt : user.location.toNat < 80 * 25 := by
    obtain ⟨hrow, hcol⟩ := mem_frameGrid.mp hp
    rw [hloc, toNat_frameLocation hrow hcol]
    omega
  obtain ⟨g₁, g₂, hgrid, hlen, hother⟩ := exists_places hp
  have hbefore := avoids_of_ne junk rows0 rows1 hp fun q hq ↦
    ⟨(hother q (.inl hq)).1, fun heq ↦ absurd heq (hother q (.inl hq)).2⟩
  have hbehind := avoids_of_ne junk rows0 rows1 hp fun q hq ↦
    ⟨(hother q (.inr hq)).1, fun heq ↦ absurd heq (hother q (.inr hq)).2⟩
  obtain ⟨s₀, hs₀, ⟨l, hl, hlacks⟩, -⟩ := (Fish.lacks_start video _).exec hne hbefore
  rw [Frames.exec_adds, Option.some.injEq] at hs₀
  obtain ⟨i, hi⟩ : ∃ i, s₀.mp1Malloc = some i := by
    rw [← hs₀]
    refine (Frames.uses_addAll _ (Fish.uses_start video)).exists_mp1Malloc ?_
    rw [Nat.zero_add]
    exact (List.length_filterMap_le _ _).trans_lt hlen
  have hadd := Fish.Blinks.of_add hl (fun j hj ↦ (hlacks j hj).1) (hloc ▸ hne)
    (fun j hj ↦ hloc ▸ (hlacks j hj).2) hi rfl
  obtain ⟨s, l', hs, hblinks⟩ := hadd.exec (hloc ▸ hbehind)
  rw [Frames.exec_adds, Option.some.injEq] at hs
  rw [ticks_adds, ← hs] at hblinks
  rw [hgrid, List.filterMap_append, List.filterMap_cons_some h, Frames.addAll_append, hs₀,
    Frames.addAll, List.foldl_cons, Fish.mp1IoctlAdd_of_lt hlt hi]
  exact ⟨l', i, hblinks⟩

theorem onAt_fifteen {user : Mp1BlinkStruct (BitVec 32)} (hon : user.onLength = 15)
    (hoff : user.offLength = 15) (t : Nat) : user.OnAt t ↔ t / 15 % 2 = 0 := by
  have hduration : duration 15 = 15 := by decide
  rw [Mp1BlinkStruct.OnAt, hon, hoff, hduration]
  omega

theorem frameCell_ne_newline {rows : List (List UInt8)} (h : ∀ l ∈ rows, 0x0a ∉ l) (row col : Nat) :
    (rows.getD row []).getD col 0x20 ≠ 0x0a := by
  have hline : 0x0a ∉ rows.getD row [] := by
    rcases Nat.lt_or_ge row rows.length with hlt | hge
    · rw [List.getD_eq_getElem _ _ hlt]
      exact h _ (List.getElem_mem hlt)
    · rw [List.getD_eq_default _ _ hge]
      exact List.not_mem_nil
  rcases Frames.getD_newline hline col with ⟨-, -, heq⟩ | ⟨hne, -, heq⟩
  · rw [heq]
    decide
  · rwa [heq]

/-- **The pictures take turns.**  After `add_frames` has added two pictures of at most 25 rows and
40 columns, and whatever calls follow that are not about one place of the right half and add nothing
at location 0, that place shows the character of the first picture for 15 ticks, the one of the
second for the next 15, and so on; if it is blank in both, nothing was drawn there. -/
theorem frames_alternate (video : Nat → BitVec 8) (junk : Mp1BlinkStruct (BitVec 32))
    (rows0 rows1 : List (List UInt8)) (hrows : max rows0.length rows1.length ≤ 25)
    (hcols : ∀ l ∈ rows0 ++ rows1, l.length ≤ 40) (hnewline : ∀ l ∈ rows0 ++ rows1, 0x0a ∉ l)
    (after : List FishCall) {row col : Nat} (hrow : row < 25) (hcol : col < 40)
    (hafter : ∀ c ∈ after, c.Avoids (frameLocation row col)) :
    ∃ s, exec Fish.next (Frames.addAll (frameBlinks junk rows0 rows1) (Fish.start video)) after =
        some s ∧
      s.charAt (frameLocation row col) =
        if (rows0.getD row []).getD col 0x20 = 0x20 ∧ (rows1.getD row []).getD col 0x20 = 0x20 then
          video (2 * (row * 80 + col + 40))
        else if after.countP FishCall.isTick / 15 % 2 = 0 then
          ((rows0.getD row []).getD col 0x20).toBitVec
        else ((rows1.getD row []).getD col 0x20).toBitVec := by
  have hp := mem_frameGrid.mpr ⟨hrow, hcol⟩
  have hne := frameLocation_ne_zero hp
  rw [frameBlinks_eq hrows hcols]
  cases hblink : gridBlink junk rows0 rows1 (row, col) with
  | none =>
      obtain ⟨hlacks, hchar⟩ := lacks_of_gridBlink video hp hblink
      obtain ⟨s, hs, -, hchar'⟩ := hlacks.exec hne hafter
      refine ⟨s, hs, ?_⟩
      rw [gridBlink, cellBlink, ite_eq_right_iff] at hblink
      have hblank := not_or.mp (mt hblink (Option.some_ne_none _))
      rw [if_pos ⟨not_not.mp hblank.1, not_not.mp hblank.2⟩, hchar', hchar, Fish.charAt,
        toNat_frameLocation hrow hcol]
      rfl
  | some user =>
      obtain ⟨l, i, hblinks⟩ := blinks_of_gridBlink video hp hblink
      have hloc := gridBlink_eq_some hblink
      obtain ⟨s, l', hs, h⟩ := hblinks.exec (hloc ▸ hafter)
      refine ⟨s, hs, ?_⟩
      have hchar := h.charAt
      rw [gridBlink, cellBlink, Option.ite_none_right_eq_some, Option.some.injEq] at hblink
      obtain ⟨hcell, rfl⟩ := hblink
      have hne0 := frameCell_ne_newline (fun l hl ↦ hnewline l (List.mem_append_left _ hl)) row col
      have hne1 := frameCell_ne_newline (fun l hl ↦ hnewline l (List.mem_append_right _ hl)) row col
      rw [if_neg (not_and_or.mpr hcell)]
      refine hchar.trans ?_
      simp only [frameBlink, if_neg hne0, if_neg hne1, onAt_fifteen, Nat.zero_add]

/-- The first place of two small pictures, after 15 ticks and then 30 more. -/
theorem frames_alternate_two :
    (∃ s, exec Fish.next (Frames.addAll (frameBlinks ⟨0, 0, 0, 0, 0, 0, 0, 0⟩ [[0x6f], [0x20, 0x78]]
        [[0x2e]]) (Fish.start fun _ ↦ 0)) (List.replicate 15 .tasklet) = some s ∧
      s.charAt (frameLocation 0 0) = 0x2e) ∧
    ∃ s, exec Fish.next (Frames.addAll (frameBlinks ⟨0, 0, 0, 0, 0, 0, 0, 0⟩ [[0x6f], [0x20, 0x78]]
        [[0x2e]]) (Fish.start fun _ ↦ 0)) (List.replicate 45 .tasklet) = some s ∧
      s.charAt (frameLocation 0 0) = 0x2e := by
  have hticks (n : Nat) : ∀ c ∈ List.replicate n FishCall.tasklet, c.Avoids (frameLocation 0 0) :=
    fun c hc ↦ List.eq_of_mem_replicate hc ▸ trivial
  have hafter (n : Nat) := frames_alternate (fun _ ↦ 0) ⟨0, 0, 0, 0, 0, 0, 0, 0⟩
    [[0x6f], [0x20, 0x78]] [[0x2e]] (by decide) (by decide) (by decide) (List.replicate n .tasklet)
    (show 0 < 25 by decide) (show 0 < 40 by decide) (hticks n)
  obtain ⟨s, hs, hchar⟩ := hafter 15
  obtain ⟨s', hs', hchar'⟩ := hafter 45
  exact ⟨⟨s, hs, hchar.trans (by decide)⟩, s', hs', hchar'.trans (by decide)⟩

end Illinix
