import Illinix.Base.Run
import Illinix.Fish.Blink

/-!
# The blink list

`mp1_malloc` looks at the location of an entry, which is what the caller of `mp1_ioctl_add` put
there, and location 0 is a cell of the screen like any other.  An entry added for it is on the list
and free at once; the next one is built in the same place, and its NEXT, the head of the list,
points to itself.

`blink_list_proper_iff` says that this is all that can go wrong.  As long as the entries on the list
have other locations (`Marked`), the entry that `mp1_malloc` returns is not among them.
-/

namespace Illinix

open Base

/-- A call to `mp1_ioctl`, or to `mp1_rtc_tasklet`. -/
inductive FishCall
  | add (user : Mp1BlinkStruct (BitVec 32))
  | remove (arg : BitVec 32)
  | find (location : BitVec 16)
  | sync (arg : BitVec 32)
  | tasklet

namespace Fish

variable {s s' : Fish} {l : List BlinkSlot}

/-- A call: what it returns, where it does, and the state after it. -/
def call (s : Fish) : FishCall → Option (Int × Fish)
  | .add user => some (s.mp1IoctlAdd user)
  | .remove arg => s.mp1IoctlRemove arg
  | .find location => (s.mp1IoctlFind location).map fun r ↦ (r.1, s)
  | .sync arg => s.mp1IoctlSync arg
  | .tasklet => s.mp1RtcTasklet.map fun s' ↦ (0, s')

/-- The state after a call. -/
def next (s : Fish) (c : FishCall) : Option Fish := (s.call c).map Prod.snd

/-- The chain from `mp1_list_head` through NEXT. -/
def IsList (s : Fish) (l : List BlinkSlot) : Prop :=
  Links (fun i ↦ s.link (some i)) (s.link none) l

/-- What a call does to the list, by what it returns. -/
def CallSpec (s : Fish) (l : List BlinkSlot) : FishCall → Int → Fish → Prop
  | .add user, ret, s' =>
      (ret = 0 → ∃ i, s.mp1Malloc = some i ∧ i ∉ l ∧ s'.IsList (i :: l) ∧
        (s'.blinkArray i).location = user.location ∧
        ∀ j, j ≠ i → s'.blinkArray j = s.blinkArray j) ∧
      (ret ≠ 0 → s' = s)
  | .remove arg, ret, s' =>
      (ret = 0 → ∃ i ∈ l, (s.blinkArray i).location = arg.setWidth 16 ∧ s'.IsList (l.erase i) ∧
        ∀ j, j ≠ i → s'.blinkArray j = { s.blinkArray j with next := s'.link (some j) }) ∧
      (ret ≠ 0 → s' = s)
  | _, _, s' => s'.IsList l ∧ ∀ j, (s'.blinkArray j).location = (s.blinkArray j).location

/-- A state with a proper list: it ends, visits no entry twice and none that is free, and every
call returns, after the edit that it is for. -/
def Proper (s : Fish) : Prop :=
  ∃ l, s.IsList l ∧ l.Nodup ∧ (∀ i, s.mp1Malloc = some i → i ∉ l) ∧
    ∀ c, ∃ ret s', s.call c = some (ret, s') ∧ s.CallSpec l c ret s'

/-! ## The allocator -/

theorem location_of_mp1Malloc {i : BlinkSlot} (h : s.mp1Malloc = some i) :
    (s.blinkArray i).location = 0 := by
  have hfound := List.find?_some h
  exact eq_of_beq hfound

theorem exists_mp1Malloc (h : ∃ i, (s.blinkArray i).location = 0) : ∃ i, s.mp1Malloc = some i := by
  obtain ⟨i, hi⟩ := h
  rw [← Option.isSome_iff_exists, mp1Malloc, List.find?_isSome]
  exact ⟨i, List.mem_finRange i, beq_iff_eq.mpr hi⟩

/-- It only looks at the locations. -/
theorem mp1Malloc_congr (h : ∀ i, (s'.blinkArray i).location = (s.blinkArray i).location) :
    s'.mp1Malloc = s.mp1Malloc := by
  have heq : (fun i ↦ (s'.blinkArray i).location == 0) =
      fun i ↦ (s.blinkArray i).location == 0 := by
    funext i
    rw [h i]
  rw [mp1Malloc, heq, mp1Malloc]

/-! ## The walks -/

theorem length_le (h : s.IsList l) : l.length ≤ 80 * 25 := by
  have hcard := h.length_le_card
  rwa [Fintype.card_fin] at hcard

theorem findLoop_eq {p : Option BlinkSlot} {n : Nat} (h : Links (fun i ↦ s.link (some i)) p l)
    (hn : l.length ≤ n) (ax : BitVec 16) :
    s.findLoop ax n p = some (l.find? fun i ↦ (s.blinkArray i).location = ax) := by
  induction h generalizing n with
  | nil => rw [findLoop, List.find?_nil]
  | @cons i l h ih =>
      obtain ⟨n, rfl⟩ := Nat.exists_eq_succ_of_ne_zero (Nat.ne_zero_of_lt hn)
      rw [findLoop, List.find?_cons]
      by_cases hi : (s.blinkArray i).location = ax
      · rw [if_pos hi, decide_eq_true hi]
      · rw [if_neg hi, decide_eq_false hi]
        exact ih (Nat.le_of_succ_le_succ hn)

theorem mp1FindHelper_eq (h : s.IsList l) (ax : BitVec 16) :
    s.mp1FindHelper ax = some (l.find? fun i ↦ (s.blinkArray i).location = ax) :=
  findLoop_eq h (length_le h) ax

/-- The search of `mp1_ioctl_remove` ends at the place before an entry of the list. -/
theorem removeFindPrev_eq {p : Option BlinkSlot} {n : Nat} {i : BlinkSlot}
    (h : Links (fun i ↦ s.link (some i)) (s.link p) l) (hi : i ∈ l) (hn : l.length ≤ n) :
    s.removeFindPrev i n p = some (prior i p l) := by
  induction l generalizing n p with
  | nil => cases hi
  | cons j l ih =>
      obtain ⟨n, rfl⟩ := Nat.exists_eq_succ_of_ne_zero (Nat.ne_zero_of_lt hn)
      generalize hp : s.link p = q at h
      cases h with
      | cons h =>
        rw [removeFindPrev, prior, hp]
        by_cases hji : j = i
        · rw [if_pos (congrArg some hji), if_pos hji]
        · have hmem : i ∈ l := (List.mem_cons.mp hi).resolve_left (Ne.symm hji)
          rw [if_neg fun heq ↦ hji (Option.some.inj heq), if_neg hji, Option.bind_some]
          exact ih h hmem (Nat.le_of_succ_le_succ hn)

/-! ## Calls that keep the list -/

/-- Nothing changed that the list depends on. -/
structure SameShape (s s' : Fish) : Prop where
  link : ∀ p, s'.link p = s.link p
  location : ∀ i, (s'.blinkArray i).location = (s.blinkArray i).location

theorem SameShape.refl (s : Fish) : s.SameShape s := ⟨fun _ ↦ rfl, fun _ ↦ rfl⟩

theorem SameShape.trans {s'' : Fish} (h : s.SameShape s') (h' : s'.SameShape s'') :
    s.SameShape s'' :=
  ⟨fun p ↦ (h'.link p).trans (h.link p), fun i ↦ (h'.location i).trans (h.location i)⟩

theorem SameShape.links {p : Option BlinkSlot} (h : s.SameShape s')
    (hl : Links (fun i ↦ s.link (some i)) p l) : Links (fun i ↦ s'.link (some i)) p l :=
  hl.congr fun i _ ↦ h.link (some i)

theorem SameShape.isList (h : s.SameShape s') (hl : s.IsList l) : s'.IsList l := by
  rw [IsList, h.link none]
  exact h.links hl

theorem sameShape_mp1Poke (s : Fish) (location : BitVec 16) (cl : BitVec 8) :
    s.SameShape (s.mp1Poke location cl) := by
  refine ⟨fun p ↦ ?_, fun _ ↦ rfl⟩
  cases p <;> rfl

theorem modify_self (s : Fish) (i : BlinkSlot) (f : BlinkNode → BlinkNode) :
    (s.modify i f).blinkArray i = f (s.blinkArray i) := Function.update_self i _ s.blinkArray

theorem modify_of_ne (s : Fish) {i j : BlinkSlot} (f : BlinkNode → BlinkNode) (h : j ≠ i) :
    (s.modify i f).blinkArray j = s.blinkArray j := Function.update_of_ne h _ s.blinkArray

theorem sameShape_modify (s : Fish) (i : BlinkSlot) {f : BlinkNode → BlinkNode}
    (hf : ∀ node, (f node).next = node.next ∧ (f node).location = node.location) :
    s.SameShape (s.modify i f) := by
  have hnode : ∀ j, ((s.modify i f).blinkArray j).next = (s.blinkArray j).next ∧
      ((s.modify i f).blinkArray j).location = (s.blinkArray j).location := by
    intro j
    by_cases hj : j = i
    · subst hj
      rw [modify_self]
      exact hf _
    · rw [modify_of_ne s f hj]
      exact ⟨rfl, rfl⟩
  refine ⟨fun p ↦ ?_, fun j ↦ (hnode j).2⟩
  cases p with
  | none => rfl
  | some j => exact (hnode j).1

theorem sameShape_syncCopy (s : Fish) (esi edi : BlinkSlot) : s.SameShape (s.syncCopy esi edi) := by
  rw [syncCopy]
  refine .trans ?_ (sameShape_mp1Poke _ _ _)
  exact sameShape_modify s edi fun _ ↦ ⟨rfl, rfl⟩

theorem sameShape_blink (s : Fish) (i : BlinkSlot) : s.SameShape (s.blink i) := by
  rw [blink]
  dsimp only
  split
  · exact sameShape_modify s i fun _ ↦ ⟨rfl, rfl⟩
  · exact (sameShape_mp1Poke s _ _).trans (sameShape_modify _ i fun _ ↦ ⟨rfl, rfl⟩)

/-- The tasklet visits the list in order. -/
theorem taskletLoop_eq {p : Option BlinkSlot} {n : Nat}
    (h : Links (fun i ↦ s.link (some i)) p l) (hn : l.length ≤ n) :
    taskletLoop n p s = some (l.foldl blink s) := by
  induction l generalizing n p s with
  | nil =>
      cases h
      rw [taskletLoop, List.foldl_nil]
  | cons i l ih =>
      obtain ⟨n, rfl⟩ := Nat.exists_eq_succ_of_ne_zero (Nat.ne_zero_of_lt hn)
      cases h with
      | cons h =>
        have hshape := sameShape_blink s i
        have hnext : ((s.blink i).blinkArray i).next = s.link (some i) := hshape.link (some i)
        rw [taskletLoop, hnext, List.foldl_cons]
        exact ih (hshape.links h) (Nat.le_of_succ_le_succ hn)

theorem mp1RtcTasklet_eq (h : s.IsList l) : s.mp1RtcTasklet = some (l.foldl blink s) :=
  taskletLoop_eq h (length_le h)

theorem sameShape_foldl_blink (s : Fish) (l : List BlinkSlot) : s.SameShape (l.foldl blink s) := by
  induction l generalizing s with
  | nil => exact .refl s
  | cons i l ih => exact (sameShape_blink s i).trans (ih (s.blink i))

/-! ## The edits -/

theorem link_setLink (s : Fish) (edx ecx : Option BlinkSlot) :
    (s.setLink edx ecx).link = Function.update s.link edx ecx := by
  funext p
  cases edx with
  | none =>
      cases p with
      | none => rw [Function.update_self]; rfl
      | some j => rw [Function.update_of_ne (Option.some_ne_none j)]; rfl
  | some i =>
      cases p with
      | none => rw [Function.update_of_ne (Option.some_ne_none i).symm]; rfl
      | some j =>
          rw [setLink, link_some]
          by_cases hj : j = i
          · rw [hj, Function.update_self, modify_self]
          · rw [Function.update_of_ne fun heq ↦ hj (Option.some.inj heq), modify_of_ne s _ hj,
              link_some]

/-- A store to a pointer leaves the rest of every entry alone. -/
theorem blinkArray_setLink (s : Fish) (edx ecx : Option BlinkSlot) (j : BlinkSlot) :
    (s.setLink edx ecx).blinkArray j =
      { s.blinkArray j with next := (s.setLink edx ecx).link (some j) } := by
  cases edx with
  | none => rfl
  | some i =>
      rw [link_some, setLink]
      by_cases hj : j = i
      · rw [hj, modify_self]
      · rw [modify_of_ne s _ hj]

theorem insertAt_self (s : Fish) (i : BlinkSlot) (temp : Mp1BlinkStruct (BitVec 32)) :
    (s.insertAt i temp).blinkArray i = { temp with next := s.mp1ListHead } :=
  Function.update_self i _ s.blinkArray

theorem insertAt_of_ne (s : Fish) {i j : BlinkSlot} (temp : Mp1BlinkStruct (BitVec 32))
    (h : j ≠ i) : (s.insertAt i temp).blinkArray j = s.blinkArray j :=
  Function.update_of_ne h _ s.blinkArray

theorem isList_insertAt {i : BlinkSlot} (hl : s.IsList l) (hi : i ∉ l)
    (temp : Mp1BlinkStruct (BitVec 32)) : (s.insertAt i temp).IsList (i :: l) := by
  refine hl.prepend ?_ fun j hj ↦ ?_
  · rw [link_some, insertAt_self, link_none]
  · have hne : j ≠ i := fun heq ↦ hi (heq ▸ hj)
    rw [link_some, insertAt_of_ne s temp hne, link_some]

theorem link_mp1Free (s : Fish) {i : BlinkSlot} {p : Option BlinkSlot} (h : p ≠ some i) :
    (s.mp1Free i).link p = s.link p := by
  cases p with
  | none => rfl
  | some j =>
      have hj : j ≠ i := fun heq ↦ h (congrArg some heq)
      rw [link_some, mp1Free, modify_of_ne s _ hj, link_some]

/-- A removal leaves the other entries alone, but for pointers. -/
theorem blinkArray_mp1Free (s : Fish) (edx ecx : Option BlinkSlot) {i j : BlinkSlot} (h : j ≠ i) :
    ((s.setLink edx ecx).mp1Free i).blinkArray j =
      { s.blinkArray j with next := ((s.setLink edx ecx).mp1Free i).link (some j) } := by
  have hne : some j ≠ some i := fun heq ↦ h (Option.some.inj heq)
  rw [mp1Free, modify_of_ne _ _ h, blinkArray_setLink, ← mp1Free, link_mp1Free _ hne]

/-- The removal of an entry of the list, which is freed. -/
theorem isList_mp1Free {i : BlinkSlot} (hl : s.IsList l) (hi : i ∈ l) :
    ((s.setLink (prior i none l) (s.link (some i))).mp1Free i).IsList (l.erase i) := by
  have hcut := hl.unlink (fun _ _ h ↦ nomatch h) hi
  rw [← link_setLink] at hcut
  rw [IsList, link_mp1Free _ (Option.some_ne_none i).symm]
  refine hcut.congr fun j hj ↦ link_mp1Free _ fun heq ↦ ?_
  -- the freed entry is not on the list any more
  rw [Option.some.injEq] at heq
  exact (hl.nodup.mem_erase_iff.mp hj).1 heq

/-! ## What a call does -/

/-- An add that fails changes nothing. -/
theorem mp1IoctlAdd_cases (s : Fish) (user : Mp1BlinkStruct (BitVec 32)) :
    s.mp1IoctlAdd user = (-1, s) ∨ ∃ i, s.mp1Malloc = some i ∧ s.mp1IoctlAdd user =
      (0, s.insertAt i { user with status := 1, countdown := user.onLength }) := by
  rw [mp1IoctlAdd]
  split
  · exact .inl rfl
  · cases hi : s.mp1Malloc with
    | none => exact .inl rfl
    | some i => exact .inr ⟨i, rfl, rfl⟩

/-- An add for a location of the screen fails only if no entry is free. -/
theorem mp1IoctlAdd_of_lt {user : Mp1BlinkStruct (BitVec 32)} {i : BlinkSlot}
    (h : user.location.toNat < 80 * 25) (hi : s.mp1Malloc = some i) : s.mp1IoctlAdd user =
      (0, s.insertAt i { user with status := 1, countdown := user.onLength }) := by
  rw [mp1IoctlAdd, if_neg (Nat.not_le_of_lt h), hi]

/-- A remove that fails changes nothing either; otherwise the entry that was found leaves the list. -/
theorem mp1IoctlRemove_cases (hl : s.IsList l) (arg : BitVec 32) :
    s.mp1IoctlRemove arg = some (-1, s) ∨
      ∃ i ∈ l, (s.blinkArray i).location = arg.setWidth 16 ∧ s.mp1IoctlRemove arg =
        some (0, (s.setLink (prior i none l) (s.link (some i))).mp1Free i) := by
  rw [mp1IoctlRemove, mp1FindHelper_eq hl, Option.bind_some]
  cases hfound : l.find? fun i ↦ (s.blinkArray i).location = arg.setWidth 16 with
  | none => exact .inl rfl
  | some i =>
      have hi : i ∈ l := List.mem_of_find?_eq_some hfound
      have hloc := List.find?_some hfound
      dsimp only
      rw [removeFindPrev_eq hl hi (length_le hl), Option.map_some]
      exact .inr ⟨i, hi, of_decide_eq_true hloc, rfl⟩

/-- A sync is a copy between the entries that the two searches find. -/
theorem mp1IoctlSync_cases (hl : s.IsList l) (arg : BitVec 32) :
    s.mp1IoctlSync arg = some (-1, s) ∨
      ∃ esi edi, s.mp1FindHelper ((arg >>> 16).setWidth 16) = some (some esi) ∧
        s.mp1FindHelper ((arg &&& 0xFFFF).setWidth 16) = some (some edi) ∧
        s.mp1IoctlSync arg = some (0, s.syncCopy esi edi) := by
  rw [mp1IoctlSync, mp1FindHelper_eq hl, mp1FindHelper_eq hl, Option.bind_some]
  cases l.find? fun i ↦ (s.blinkArray i).location = (arg >>> 16).setWidth 16 with
  | none => exact .inl rfl
  | some esi =>
      cases l.find? fun i ↦ (s.blinkArray i).location = (arg &&& 0xFFFF).setWidth 16 with
      | none => exact .inl rfl
      | some edi => exact .inr ⟨esi, edi, rfl, rfl, rfl⟩

theorem callSpec_add (hl : s.IsList l) (hfree : ∀ i, s.mp1Malloc = some i → i ∉ l)
    (user : Mp1BlinkStruct (BitVec 32)) :
    s.CallSpec l (.add user) (s.mp1IoctlAdd user).1 (s.mp1IoctlAdd user).2 := by
  rw [CallSpec]
  rcases mp1IoctlAdd_cases s user with hfail | ⟨i, hi, hadd⟩
  · rw [hfail]
    exact ⟨fun (hret : (-1 : Int) = 0) ↦ absurd hret (by decide), fun _ ↦ rfl⟩
  · rw [hadd]
    refine ⟨fun _ ↦ ⟨i, hi, hfree i hi, ?_, ?_, fun j hj ↦ ?_⟩, fun h ↦ absurd rfl h⟩
    · exact isList_insertAt hl (hfree i hi) _
    · rw [insertAt_self]
    · exact insertAt_of_ne s _ hj

theorem callSpec_remove (hl : s.IsList l) (arg : BitVec 32) :
    ∃ ret s', s.mp1IoctlRemove arg = some (ret, s') ∧ s.CallSpec l (.remove arg) ret s' := by
  simp only [CallSpec]
  rcases mp1IoctlRemove_cases hl arg with hfail | ⟨i, hi, hloc, hremove⟩
  · exact ⟨-1, s, hfail, fun hret ↦ absurd hret (by decide), fun _ ↦ rfl⟩
  · refine ⟨0, _, hremove, fun _ ↦ ⟨i, hi, hloc, isList_mp1Free hl hi, fun j hj ↦ ?_⟩,
      fun h ↦ absurd rfl h⟩
    exact blinkArray_mp1Free s _ _ hj

/-- A call that leaves the list alone. -/
theorem SameShape.spec (h : s.SameShape s') (hl : s.IsList l) :
    s'.IsList l ∧ ∀ j, (s'.blinkArray j).location = (s.blinkArray j).location :=
  ⟨h.isList hl, h.location⟩

theorem callSpec_sync (hl : s.IsList l) (arg : BitVec 32) :
    ∃ ret s', s.mp1IoctlSync arg = some (ret, s') ∧ s.CallSpec l (.sync arg) ret s' := by
  rcases mp1IoctlSync_cases hl arg with hfail | ⟨esi, edi, -, -, hsync⟩
  · exact ⟨-1, s, hfail, (SameShape.refl s).spec hl⟩
  · exact ⟨0, _, hsync, (sameShape_syncCopy s esi edi).spec hl⟩

/-- Every call on a list returns, if the allocator does not give away an entry of it. -/
theorem callSpec (hl : s.IsList l) (hfree : ∀ i, s.mp1Malloc = some i → i ∉ l) (c : FishCall) :
    ∃ ret s', s.call c = some (ret, s') ∧ s.CallSpec l c ret s' := by
  cases c with
  | add user => exact ⟨_, _, rfl, callSpec_add hl hfree user⟩
  | remove arg => exact callSpec_remove hl arg
  | find location =>
      rw [call, mp1IoctlFind, mp1FindHelper_eq hl]
      exact ⟨_, s, rfl, (SameShape.refl s).spec hl⟩
  | sync arg => exact callSpec_sync hl arg
  | tasklet =>
      rw [call, mp1RtcTasklet_eq hl]
      exact ⟨0, _, rfl, (sameShape_foldl_blink s l).spec hl⟩

/-! ## Runs -/

/-- The invariant: no entry on the list is free. -/
def Marked (s : Fish) : Prop := ∃ l, s.IsList l ∧ ∀ i ∈ l, (s.blinkArray i).location ≠ 0

/-- The calls that keep it: no add for location 0 finds a free entry. -/
def KeepsMarks (s : Fish) (c : FishCall) : Prop :=
  ∀ user, c = .add user → user.location = 0 → ∀ i, (s.blinkArray i).location ≠ 0

theorem marked_start (video : Nat → BitVec 8) : (start video).Marked :=
  ⟨[], .nil, fun _ hi ↦ nomatch hi⟩

/-- The entry that the allocator returns is not on the list. -/
theorem notMem_of_mp1Malloc (hmark : ∀ i ∈ l, (s.blinkArray i).location ≠ 0) (i : BlinkSlot)
    (hi : s.mp1Malloc = some i) : i ∉ l :=
  fun hmem ↦ hmark i hmem (location_of_mp1Malloc hi)

theorem Marked.proper (h : s.Marked) : s.Proper := by
  obtain ⟨l, hl, hmark⟩ := h
  have hfree := notMem_of_mp1Malloc hmark
  exact ⟨l, hl, hl.nodup, hfree, callSpec hl hfree⟩

/-- The invariant from the effect of a call. -/
theorem CallSpec.marked {c : FishCall} {ret : Int} (hspec : s.CallSpec l c ret s')
    (hl : s.IsList l) (hmark : ∀ i ∈ l, (s.blinkArray i).location ≠ 0) (hc : s.KeepsMarks c) :
    s'.Marked := by
  by_cases hsame : s' = s
  · rw [hsame]
    exact ⟨l, hl, hmark⟩
  cases c with
  | add user =>
      have hret : ret = 0 := by_contra fun hne ↦ hsame (hspec.2 hne)
      obtain ⟨i, hi, -, hl', hloc, hrest⟩ := hspec.1 hret
      refine ⟨i :: l, hl', fun j hj ↦ ?_⟩
      by_cases hji : j = i
      · rw [hji, hloc]
        exact fun hzero ↦ hc user rfl hzero i (location_of_mp1Malloc hi)
      · rw [hrest j hji]
        exact hmark j ((List.mem_cons.mp hj).resolve_left hji)
  | remove arg =>
      have hret : ret = 0 := by_contra fun hne ↦ hsame (hspec.2 hne)
      obtain ⟨i, -, -, hl', hrest⟩ := hspec.1 hret
      refine ⟨l.erase i, hl', fun j hj ↦ ?_⟩
      obtain ⟨hji, hmem⟩ := hl.nodup.mem_erase_iff.mp hj
      rw [hrest j hji]
      exact hmark j hmem
  | find _ => exact ⟨l, hspec.1, fun j hj ↦ hspec.2 j ▸ hmark j hj⟩
  | sync _ => exact ⟨l, hspec.1, fun j hj ↦ hspec.2 j ▸ hmark j hj⟩
  | tasklet => exact ⟨l, hspec.1, fun j hj ↦ hspec.2 j ▸ hmark j hj⟩

theorem Marked.step {c : FishCall} (h : s.Marked) (hc : s.KeepsMarks c) (hs : s.next c = some s') :
    s'.Marked := by
  obtain ⟨l, hl, hmark⟩ := h
  obtain ⟨ret, s'', hcall, hspec⟩ := callSpec hl (notMem_of_mp1Malloc hmark) c
  rw [next, hcall, Option.map_some, Option.some.injEq] at hs
  subst hs
  exact hspec.marked hl hmark hc

/-! ## Location 0 -/

/-- An add for location 0 that finds a free entry puts it on the list, and the allocator will
return it again. -/
theorem add_zero (h : ∃ i, (s.blinkArray i).location = 0) (user : Mp1BlinkStruct (BitVec 32))
    (hzero : user.location = 0) :
    ∃ i s', s.next (.add user) = some s' ∧ s'.link none = some i ∧ s'.mp1Malloc = some i := by
  obtain ⟨i, hi⟩ := exists_mp1Malloc h
  have hlt : user.location.toNat < 80 * 25 := by
    rw [hzero]
    decide
  refine ⟨i, _, congrArg some (congrArg Prod.snd (mp1IoctlAdd_of_lt hlt hi)), rfl, ?_⟩
  refine (mp1Malloc_congr fun j ↦ ?_).trans hi
  by_cases hji : j = i
  · rw [hji, insertAt_self, location_of_mp1Malloc hi]
    exact hzero
  · rw [insertAt_of_ne s _ hji]

theorem not_proper {i : BlinkSlot} (hhead : s.link none = some i) (hi : s.mp1Malloc = some i) :
    ¬ s.Proper := by
  rintro ⟨l, hl, -, hfree, -⟩
  rw [IsList, hhead] at hl
  cases hl with
  | cons _ => exact hfree i hi List.mem_cons_self

/-- The next add makes the head of the list its own successor. -/
theorem add_loops {i : BlinkSlot} (hhead : s.link none = some i) (hi : s.mp1Malloc = some i)
    (user : Mp1BlinkStruct (BitVec 32)) (hlt : user.location.toNat < 80 * 25) :
    ∃ s', s.next (.add user) = some s' ∧ s'.link none = some i ∧ s'.link (some i) = some i := by
  refine ⟨_, congrArg some (congrArg Prod.snd (mp1IoctlAdd_of_lt hlt hi)), rfl, ?_⟩
  rw [link_some, insertAt_self]
  exact hhead

/-- The tasklet never leaves an entry that is its own successor. -/
theorem taskletLoop_loop {i : BlinkSlot} (h : s.link (some i) = some i) (n : Nat) :
    taskletLoop n (some i) s = none := by
  induction n generalizing s with
  | zero => rfl
  | succ n ih =>
      have hshape : ((s.blink i).blinkArray i).next = some i :=
        ((sameShape_blink s i).link (some i)).trans h
      rw [taskletLoop, hshape]
      exact ih hshape

theorem next_tasklet_loop {i : BlinkSlot} (hhead : s.link none = some i)
    (hloop : s.link (some i) = some i) : s.next .tasklet = none := by
  rw [next, call, mp1RtcTasklet, ← link_none, hhead, taskletLoop_loop hloop]
  rfl

/-- **When the blink list stays a proper list.**  For every sequence of calls it does in every state
if and only if no structure with location 0 is added while an entry is free. -/
theorem blink_list_proper_iff (video : Nat → BitVec 8) (calls : List FishCall) :
    Along next Proper (start video) calls ↔
      AllSteps next (fun s c ↦ ∀ user, c = .add user → user.location = 0 →
        ∀ i, (s.blinkArray i).location ≠ 0) (start video) calls := by
  have hstart := marked_start video
  rw [along_iff, and_iff_right hstart.proper]
  refine (AllSteps.congr Marked (fun s c s' h hc hs ↦ h.step hc hs) (fun s c h ↦ ?_) hstart).symm
  constructor
  · intro hc s' hs
    exact (h.step hc hs).proper
  · rintro hproper user rfl hzero i hi
    obtain ⟨j, s', hs, hhead, hj⟩ := add_zero ⟨i, hi⟩ user hzero
    exact not_proper hhead hj (hproper s' hs)

/-- One structure with location 0 puts a free entry on the list, and after the next the tasklet does
not return. -/
theorem blink_list_location_zero :
    ¬ Along next Proper (start fun _ ↦ 0) [.add ⟨0, 0x49, 0x4D, 7, 6, 0, 0, 0⟩] ∧
      exec next (start fun _ ↦ 0) [.add ⟨0, 0x49, 0x4D, 7, 6, 0, 0, 0⟩,
        .add ⟨540, 0x49, 0x4D, 7, 6, 0, 0, 0⟩, .tasklet] = none := by
  obtain ⟨i, s₁, hs₁, hhead₁, hi⟩ := add_zero (s := start fun _ ↦ 0) ⟨0, rfl⟩
    ⟨0, 0x49, 0x4D, 7, 6, 0, 0, 0⟩ rfl
  constructor
  · intro halong
    refine not_proper hhead₁ hi (halong _ s₁ List.prefix_rfl ?_)
    exact exec_cons_eq_some.mpr ⟨s₁, hs₁, rfl⟩
  · obtain ⟨s₂, hs₂, hhead₂, hloop⟩ :=
      add_loops hhead₁ hi ⟨540, 0x49, 0x4D, 7, 6, 0, 0, 0⟩ (by decide)
    rw [exec_cons, hs₁, Option.bind_some, exec_cons, hs₂, Option.bind_some, exec_cons,
      next_tasklet_loop hhead₂ hloop]
    rfl

end Fish

end Illinix
