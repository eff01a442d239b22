import Illinix.Fish.BlinkList

/-!
# What blinks on the screen

The cell of an entry should show its ON_CHAR while bit 0 of its STATUS is set, and its OFF_CHAR
otherwise.  Every edit of the list draws one cell at most, that of the one entry it is about
(`Draws`), so with distinct locations the other entries are not disturbed (`Draws.shows_of_ne`).
An added entry is on and shows its ON_CHAR, and the tasklet draws the character of the state that
an entry goes to.

`mp1_ioctl_sync` copies the STATUS and is to draw the character that goes with it.  It tests the bit
with `testb`, which leaves it in the zero flag, but then moves on the sign flag: the OFF_CHAR is
drawn in either state (`syncChar_eq`).  `blink_shows_iff` says when this is seen.
-/

namespace Illinix

open Base

/-- The character that goes with the STATUS of an entry. -/
def BlinkNode.char (node : BlinkNode) : BitVec 8 :=
  if node.status &&& 1 ≠ 0 then node.onChar else node.offChar

/-- The location that a call adds. -/
def FishCall.added : FishCall → Option (BitVec 16)
  | .add user => some user.location
  | _ => none

namespace Fish

variable {s s' : Fish} {l : List BlinkSlot} {i j : BlinkSlot}

/-- The character in the cell of a location. -/
def charAt (s : Fish) (location : BitVec 16) : BitVec 8 := s.video (2 * location.toNat)

/-- An entry that is shown as its STATUS says. -/
def ShowsNode (s : Fish) (i : BlinkSlot) : Prop :=
  s.charAt (s.blinkArray i).location = (s.blinkArray i).char

/-- Every entry of the list is shown as its STATUS says. -/
def Shows (s : Fish) : Prop := ∃ l, s.IsList l ∧ ∀ i ∈ l, s.ShowsNode i

/-! ## One cell -/

/-- Only the entry `i` has changed, but for pointers, and only its cell was drawn. -/
structure Draws (s s' : Fish) (i : BlinkSlot) : Prop where
  entry : ∀ j, j ≠ i → s'.blinkArray j = { s.blinkArray j with next := s'.link (some j) }
  cell : ∀ location, location ≠ (s'.blinkArray i).location → s'.charAt location = s.charAt location

theorem Draws.shows_of_ne (h : s.Draws s' i) (hj : j ≠ i)
    (hloc : (s.blinkArray j).location ≠ (s'.blinkArray i).location) (hshows : s.ShowsNode j) :
    s'.ShowsNode j := by
  rw [ShowsNode, h.entry j hj]
  exact (h.cell _ hloc).trans hshows

theorem charAt_mp1Poke (s : Fish) (location : BitVec 16) (cl : BitVec 8) :
    (s.mp1Poke location cl).charAt location = cl := by
  simp only [charAt, mp1Poke, Function.update_self]

theorem charAt_mp1Poke_of_ne (s : Fish) {location location' : BitVec 16} (cl : BitVec 8)
    (h : location' ≠ location) : (s.mp1Poke location cl).charAt location' = s.charAt location' := by
  have hne : 2 * location'.toNat ≠ 2 * location.toNat := fun heq ↦
    h (BitVec.eq_of_toNat_eq (Nat.eq_of_mul_eq_mul_left Nat.two_pos heq))
  exact Function.update_of_ne hne cl s.video

theorem draws_insertAt (s : Fish) (i : BlinkSlot) (temp : Mp1BlinkStruct (BitVec 32)) :
    s.Draws (s.insertAt i temp) i where
  entry j hj := by rw [link_some, insertAt_of_ne s temp hj]
  cell location h := by
    rw [insertAt_self] at h
    exact charAt_mp1Poke_of_ne _ _ h

theorem draws_modify (s : Fish) (i : BlinkSlot) (f : BlinkNode → BlinkNode) :
    s.Draws (s.modify i f) i where
  entry j hj := by rw [link_some, modify_of_ne s f hj]
  cell _ _ := rfl

theorem draws_mp1Free (s : Fish) (edx ecx : Option BlinkSlot) (i : BlinkSlot) :
    s.Draws ((s.setLink edx ecx).mp1Free i) i where
  entry _ hj := blinkArray_mp1Free s edx ecx hj
  cell _ _ := by cases edx <;> rfl

theorem draws_blink (s : Fish) (i : BlinkSlot) : s.Draws (s.blink i) i := by
  have hloc := (sameShape_blink s i).location i
  rw [blink] at hloc ⊢
  dsimp only at hloc ⊢
  split
  · exact draws_modify s i _
  · rename_i hcount
    rw [if_neg hcount] at hloc
    refine ⟨fun j hj ↦ ?_, fun location h ↦ ?_⟩
    · rw [link_some, modify_of_ne _ _ hj]
      rfl
    · rw [hloc] at h
      exact charAt_mp1Poke_of_ne s _ h

/-! ## Bit 0 -/

theorem land_one_ne_zero (x : BitVec 16) : x &&& 1 ≠ 0 ↔ x.getLsbD 0 = true := by
  have hbit : x &&& 1 = (BitVec.ofBool (x.getLsbD 0)).setWidth 16 :=
    BitVec.and_one_eq_setWidth_ofBool_getLsbD
  rw [hbit]
  cases x.getLsbD 0 with
  | false => decide
  | true => decide

/-- A toggle. -/
theorem lxor_one_ne_zero (x : BitVec 16) : (x ^^^ 1) &&& 1 ≠ 0 ↔ ¬ x &&& 1 ≠ 0 := by
  have hbit : (1 : BitVec 16).getLsbD 0 = true := rfl
  rw [land_one_ne_zero, land_one_ne_zero, BitVec.getLsbD_xor, hbit, Bool.xor_true,
    Bool.not_eq_true', Bool.not_eq_true]

/-- The sign flag is clear behind the `testb`. -/
theorem syncChar_eq (node : BlinkNode) : syncChar node = node.offChar := by
  have hsign : (node.status.setWidth 8 &&& 1).msb = false := by
    rw [BitVec.msb_and]
    exact Bool.and_false _
  rw [syncChar, hsign]
  rfl

/-- What `mp1_ioctl_sync` copies. -/
def synced (src node : BlinkNode) : BlinkNode :=
  { node with
    onLength := src.onLength
    offLength := src.offLength
    countdown := src.countdown
    status := src.status }

theorem syncCopy_eq (s : Fish) (esi edi : BlinkSlot) :
    s.syncCopy esi edi = (s.modify edi (synced (s.blinkArray esi))).mp1Poke
      (s.blinkArray edi).location (s.blinkArray edi).offChar := by
  have hself : (s.modify edi (synced (s.blinkArray esi))).blinkArray edi =
      synced (s.blinkArray esi) (s.blinkArray edi) := modify_self s edi _
  rw [syncCopy, syncChar_eq]
  change mp1Poke (s.modify edi (synced (s.blinkArray esi)))
    ((s.modify edi (synced (s.blinkArray esi))).blinkArray edi).location
    ((s.modify edi (synced (s.blinkArray esi))).blinkArray edi).offChar = _
  rw [hself]
  rfl

theorem draws_syncCopy (s : Fish) (esi edi : BlinkSlot) : s.Draws (s.syncCopy esi edi) edi := by
  have hloc := (sameShape_syncCopy s esi edi).location edi
  refine ⟨fun j hj ↦ ?_, fun location h ↦ ?_⟩
  · rw [link_some, syncCopy_eq]
    exact (draws_modify s edi _).entry j hj
  · rw [hloc] at h
    rw [syncCopy_eq]
    exact charAt_mp1Poke_of_ne _ _ h

/-- The entry that was copied to shows its OFF_CHAR, whatever its STATUS is now. -/
theorem shows_syncCopy_iff (s : Fish) (esi edi : BlinkSlot) :
    (s.syncCopy esi edi).ShowsNode edi ↔ (s.blinkArray esi).status &&& 1 = 0 ∨
      (s.blinkArray edi).onChar = (s.blinkArray edi).offChar := by
  have hself : (s.syncCopy esi edi).blinkArray edi =
      synced (s.blinkArray esi) (s.blinkArray edi) := by
    rw [syncCopy_eq]
    exact modify_self s edi _
  have hshown : (s.syncCopy esi edi).charAt (s.blinkArray edi).location =
      (s.blinkArray edi).offChar := by
    rw [syncCopy_eq]
    exact charAt_mp1Poke _ _ _
  rw [ShowsNode, hself, show (synced (s.blinkArray esi) (s.blinkArray edi)).location =
    (s.blinkArray edi).location from rfl, hshown, BlinkNode.char, synced]
  dsimp only
  split
  · rename_i hon
    rw [or_iff_right hon, eq_comm]
  · rename_i hoff
    exact iff_of_true rfl (Or.inl (not_not.mp hoff))

/-- The tasklet draws the character of the state that it goes to. -/
theorem shows_blink (h : s.ShowsNode i) : (s.blink i).ShowsNode i := by
  have htoggle := lxor_one_ne_zero (s.blinkArray i).status
  by_cases hcount : 0 < ((s.blinkArray i).countdown - 1).toInt
  · simp only [blink, if_pos hcount]
    rw [ShowsNode, modify_self]
    exact h
  · by_cases hon : (s.blinkArray i).status &&& 1 ≠ 0
    · simp only [blink, if_neg hcount, if_pos hon]
      rw [ShowsNode, modify_self]
      refine (charAt_mp1Poke s _ _).trans ?_
      exact (if_neg fun hon' ↦ htoggle.mp hon' hon).symm
    · simp only [blink, if_neg hcount, if_neg hon]
      rw [ShowsNode, modify_self]
      refine (charAt_mp1Poke s _ _).trans ?_
      exact (if_pos (htoggle.mpr hon)).symm

theorem shows_insertAt (s : Fish) (i : BlinkSlot) {temp : Mp1BlinkStruct (BitVec 32)}
    (hstatus : temp.status = 1) : (s.insertAt i temp).ShowsNode i := by
  rw [ShowsNode, insertAt_self, BlinkNode.char, hstatus, if_pos (by decide)]
  exact charAt_mp1Poke _ _ _

/-! ## The list -/

/-- A list of entries with different locations, none of them 0, that are shown. -/
structure Displays (s : Fish) (l : List BlinkSlot) : Prop where
  isList : s.IsList l
  location_ne : ∀ i ∈ l, (s.blinkArray i).location ≠ 0
  distinct : ∀ i ∈ l, ∀ j ∈ l, j ≠ i → (s.blinkArray j).location ≠ (s.blinkArray i).location
  shows : ∀ i ∈ l, s.ShowsNode i

namespace Displays

/-- A change to the entry `i`, which shows it and keeps the list and the locations. -/
theorem sameShape (h : s.Displays l) (hshape : s.SameShape s') (hdraws : s.Draws s' i) (hi : i ∈ l)
    (hshows : s'.ShowsNode i) : s'.Displays l := by
  refine ⟨hshape.isList h.isList, fun j hj ↦ ?_, fun j hj k hk hkj ↦ ?_, fun j hj ↦ ?_⟩
  · rw [hshape.location]
    exact h.location_ne j hj
  · rw [hshape.location, hshape.location]
    exact h.distinct j hj k hk hkj
  · by_cases hji : j = i
    · rw [hji]
      exact hshows
    · refine hdraws.shows_of_ne hji ?_ (h.shows j hj)
      rw [hshape.location]
      exact h.distinct i hi j hj hji

theorem blink (h : s.Displays l) (hi : i ∈ l) : (s.blink i).Displays l :=
  h.sameShape (sameShape_blink s i) (draws_blink s i) hi (shows_blink (h.shows i hi))

theorem foldl_blink (h : s.Displays l) {l' : List BlinkSlot} (hl' : ∀ i ∈ l', i ∈ l) :
    (l'.foldl Fish.blink s).Displays l := by
  induction l' generalizing s with
  | nil => exact h
  | cons i l' ih =>
      exact ih (h.blink (hl' i List.mem_cons_self)) fun j hj ↦ hl' j (List.mem_cons_of_mem i hj)

theorem insertAt (h : s.Displays l) (hi : i ∉ l) {temp : Mp1BlinkStruct (BitVec 32)}
    (hstatus : temp.status = 1) (hne : temp.location ≠ 0)
    (hnew : ∀ j ∈ l, (s.blinkArray j).location ≠ temp.location) :
    (s.insertAt i temp).Displays (i :: l) := by
  have hself : ((s.insertAt i temp).blinkArray i).location = temp.location := by
    rw [insertAt_self]
  have hold : ∀ j ∈ l, (s.insertAt i temp).blinkArray j = s.blinkArray j := fun j hj ↦
    insertAt_of_ne s temp fun heq ↦ hi (heq ▸ hj)
  refine ⟨isList_insertAt h.isList hi temp, ?_, ?_, ?_⟩
  · rw [List.forall_mem_cons, hself]
    exact ⟨hne, fun j hj ↦ hold j hj ▸ h.location_ne j hj⟩
  · intro j hj k hk hkj
    rcases List.mem_cons.mp hj with rfl | hjl
    · have hkl := (List.mem_cons.mp hk).resolve_left hkj
      rw [hself, hold k hkl]
      exact hnew k hkl
    · rcases List.mem_cons.mp hk with rfl | hkl
      · rw [hself, hold j hjl]
        exact (hnew j hjl).symm
      · rw [hold j hjl, hold k hkl]
        exact h.distinct j hjl k hkl hkj
  · rw [List.forall_mem_cons]
    refine ⟨shows_insertAt s i hstatus, fun j hj ↦ ?_⟩
    refine (draws_insertAt s i temp).shows_of_ne (fun heq ↦ hi (heq ▸ hj)) ?_ (h.shows j hj)
    rw [hself]
    exact hnew j hj

theorem mp1Free (h : s.Displays l) (hi : i ∈ l) :
    ((s.setLink (prior i none l) (s.link (some i))).mp1Free i).Displays (l.erase i) := by
  have hdraws := draws_mp1Free s (prior i none l) (s.link (some i)) i
  have hmem : ∀ j ∈ l.erase i, j ≠ i ∧ j ∈ l := fun j hj ↦ h.isList.nodup.mem_erase_iff.mp hj
  refine ⟨isList_mp1Free h.isList hi, fun j hj ↦ ?_, fun j hj k hk hkj ↦ ?_, fun j hj ↦ ?_⟩
  · rw [hdraws.entry j (hmem j hj).1]
    exact h.location_ne j (hmem j hj).2
  · rw [hdraws.entry j (hmem j hj).1, hdraws.entry k (hmem k hk).1]
    exact h.distinct j (hmem j hj).2 k (hmem k hk).2 hkj
  · refine hdraws.shows_of_ne (hmem j hj).1 ?_ (h.shows j (hmem j hj).2)
    -- the freed entry has location 0
    rw [Fish.mp1Free, modify_self]
    exact h.location_ne j (hmem j hj).2

/-- With distinct locations the search finds the one entry that there is. -/
theorem mp1FindHelper_iff (h : s.Displays l) (ax : BitVec 16) :
    s.mp1FindHelper ax = some (some i) ↔ i ∈ l ∧ (s.blinkArray i).location = ax := by
  have hunique : ∀ j, (l.find? fun j ↦ (s.blinkArray j).location = ax) = some j →
      j ∈ l ∧ (s.blinkArray j).location = ax := by
    intro j hfound
    have hloc := List.find?_some hfound
    exact ⟨List.mem_of_find?_eq_some hfound, of_decide_eq_true hloc⟩
  rw [mp1FindHelper_eq h.isList, Option.some.injEq]
  refine ⟨hunique i, ?_⟩
  rintro ⟨hi, hloc⟩
  cases hfound : l.find? fun j ↦ (s.blinkArray j).location = ax with
  | none =>
      have hnone := List.find?_eq_none.mp hfound i hi
      exact absurd (decide_eq_true hloc) hnone
  | some j =>
      obtain ⟨hj, hjloc⟩ := hunique j hfound
      by_contra hji
      refine h.distinct i hi j hj (fun heq ↦ hji (congrArg some heq)) ?_
      rw [hjloc, hloc]

end Displays

/-! ## Runs -/

/-- What a call does to a list. -/
theorem next_cases (hl : s.IsList l) {c : FishCall} (hs : s.next c = some s') :
    s' = s ∨
    (∃ user i, c = .add user ∧ s.mp1Malloc = some i ∧
      s' = s.insertAt i { user with status := 1, countdown := user.onLength }) ∨
    (∃ i ∈ l, s' = (s.setLink (prior i none l) (s.link (some i))).mp1Free i) ∨
    (∃ arg esi edi, c = .sync arg ∧
      s.mp1FindHelper ((arg >>> 16).setWidth 16) = some (some esi) ∧
      s.mp1FindHelper ((arg &&& 0xFFFF).setWidth 16) = some (some edi) ∧
      s' = s.syncCopy esi edi) ∨
    s' = l.foldl blink s := by
  rw [next, Option.map_eq_some_iff] at hs
  obtain ⟨⟨ret, s''⟩, hcall, rfl⟩ := hs
  cases c with
  | add user =>
      rw [call, Option.some.injEq] at hcall
      rcases mp1IoctlAdd_cases s user with hfail | ⟨i, hi, hadd⟩
      · rw [hfail] at hcall
        exact .inl (congrArg Prod.snd hcall).symm
      · rw [hadd] at hcall
        exact .inr (.inl ⟨user, i, rfl, hi, (congrArg Prod.snd hcall).symm⟩)
  | remove arg =>
      rw [call] at hcall
      rcases mp1IoctlRemove_cases hl arg with hfail | ⟨i, hi, -, hremove⟩
      · rw [hfail, Option.some.injEq] at hcall
        exact .inl (congrArg Prod.snd hcall).symm
      · rw [hremove, Option.some.injEq] at hcall
        exact .inr (.inr (.inl ⟨i, hi, (congrArg Prod.snd hcall).symm⟩))
  | find location =>
      rw [call, Option.map_eq_some_iff] at hcall
      obtain ⟨r, -, hr⟩ := hcall
      exact .inl (congrArg Prod.snd hr).symm
  | sync arg =>
      rw [call] at hcall
      rcases mp1IoctlSync_cases hl arg with hfail | ⟨esi, edi, hesi, hedi, hsync⟩
      · rw [hfail, Option.some.injEq] at hcall
        exact .inl (congrArg Prod.snd hcall).symm
      · rw [hsync, Option.some.injEq] at hcall
        exact .inr (.inr (.inr (.inl
          ⟨arg, esi, edi, rfl, hesi, hedi, (congrArg Prod.snd hcall).symm⟩)))
  | tasklet =>
      rw [call, mp1RtcTasklet_eq hl, Option.map_some, Option.some.injEq] at hcall
      exact .inr (.inr (.inr (.inr (congrArg Prod.snd hcall).symm)))

/-- The syncs that draw the right character: from an entry that is off, or to one whose characters
are the same. -/
def SyncOk (s : Fish) (c : FishCall) : Prop :=
  ∀ l arg, s.IsList l → c = .sync arg → ∀ esi ∈ l, ∀ edi ∈ l,
    (s.blinkArray esi).location = (arg >>> 16).setWidth 16 →
    (s.blinkArray edi).location = (arg &&& 0xFFFF).setWidth 16 →
    (s.blinkArray esi).status &&& 1 = 0 ∨ (s.blinkArray edi).onChar = (s.blinkArray edi).offChar

/-- Step lemma.  The entries afterwards are old ones, and one for the location that was added. -/
theorem Displays.step {c : FishCall} (h : s.Displays l)
    (hnew : ∀ location, c.added = some location →
      location ≠ 0 ∧ ∀ i ∈ l, (s.blinkArray i).location ≠ location)
    (hok : s.SyncOk c) (hs : s.next c = some s') :
    ∃ l', s'.Displays l' ∧ ∀ i ∈ l',
      (∃ j ∈ l, (s.blinkArray j).location = (s'.blinkArray i).location) ∨
        c.added = some (s'.blinkArray i).location := by
  rcases next_cases h.isList hs with rfl | ⟨user, i, rfl, hi, rfl⟩ | ⟨i, hi, rfl⟩ |
    ⟨arg, esi, edi, rfl, hesi, hedi, rfl⟩ | rfl
  · exact ⟨l, h, fun i hi ↦ .inl ⟨i, hi, rfl⟩⟩
  · have hil := notMem_of_mp1Malloc h.location_ne i hi
    obtain ⟨hne, hold⟩ := hnew user.location rfl
    refine ⟨i :: l, h.insertAt hil rfl hne hold, fun j hj ↦ ?_⟩
    by_cases hji : j = i
    · right
      rw [hji, insertAt_self]
      rfl
    · left
      refine ⟨j, (List.mem_cons.mp hj).resolve_left hji, ?_⟩
      rw [insertAt_of_ne s _ hji]
  · refine ⟨l.erase i, h.mp1Free hi, fun j hj ↦ .inl ?_⟩
    obtain ⟨hji, hjl⟩ := h.isList.nodup.mem_erase_iff.mp hj
    refine ⟨j, hjl, ?_⟩
    rw [(draws_mp1Free s _ _ i).entry j hji]
  · obtain ⟨hel, heloc⟩ := (h.mp1FindHelper_iff _).mp hesi
    obtain ⟨hdl, hdloc⟩ := (h.mp1FindHelper_iff _).mp hedi
    have hshows := (shows_syncCopy_iff s esi edi).mpr
      (hok l arg h.isList rfl esi hel edi hdl heloc hdloc)
    have hshape := sameShape_syncCopy s esi edi
    refine ⟨l, h.sameShape hshape (draws_syncCopy s esi edi) hdl hshows, fun i hi ↦ .inl ?_⟩
    exact ⟨i, hi, (hshape.location i).symm⟩
  · refine ⟨l, h.foldl_blink fun i hi ↦ hi, fun i hi ↦ .inl ?_⟩
    exact ⟨i, hi, ((sameShape_foldl_blink s l).location i).symm⟩

/-- A sync that does not draw the right character is seen. -/
theorem Displays.syncOk {c : FishCall} (h : s.Displays l)
    (hshows : ∀ s', s.next c = some s' → s'.Shows) : s.SyncOk c := by
  rintro l' arg hl' rfl esi hesi edi hedi heloc hdloc
  rw [hl'.unique h.isList] at hesi hedi
  have hfirst := (h.mp1FindHelper_iff _).mpr ⟨hesi, heloc⟩
  have hsecond := (h.mp1FindHelper_iff _).mpr ⟨hedi, hdloc⟩
  have hnext : s.next (.sync arg) = some (s.syncCopy esi edi) := by
    rw [next, call, mp1IoctlSync, hfirst, Option.bind_some]
    dsimp only
    rw [hsecond]
    rfl
  obtain ⟨l'', hl'', hall⟩ := hshows _ hnext
  have hsame := (sameShape_syncCopy s esi edi).isList h.isList
  rw [hl''.unique hsame] at hall
  exact (shows_syncCopy_iff s esi edi).mp (hall edi hedi)

/-- The runs from a list to which only new locations are added. -/
theorem Displays.shows_iff {calls : List FishCall} (h : s.Displays l)
    (hdistinct : (calls.filterMap FishCall.added).Nodup)
    (hzero : 0 ∉ calls.filterMap FishCall.added)
    (hnew : ∀ i ∈ l, (s.blinkArray i).location ∉ calls.filterMap FishCall.added) :
    AllSteps next (fun s c ↦ ∀ s', s.next c = some s' → s'.Shows) s calls ↔
      AllSteps next SyncOk s calls := by
  induction calls generalizing s l with
  | nil => exact Iff.rfl
  | cons c calls ih =>
      have hadded : ∀ location, c.added = some location →
          location ∈ (c :: calls).filterMap FishCall.added ∧
          location ∉ calls.filterMap FishCall.added := by
        intro location hc
        rw [List.filterMap_cons_some hc] at hdistinct ⊢
        exact ⟨List.mem_cons_self, (List.nodup_cons.mp hdistinct).1⟩
      have hsub : (calls.filterMap FishCall.added).Sublist
          ((c :: calls).filterMap FishCall.added) :=
        (List.sublist_cons_self c calls).filterMap FishCall.added
      have hrest : s.SyncOk c → ∀ s', s.next c = some s' → s'.Shows ∧
          (AllSteps next (fun s c ↦ ∀ s', s.next c = some s' → s'.Shows) s' calls ↔
            AllSteps next SyncOk s' calls) := by
        intro hok s' hs
        obtain ⟨l', h', hold⟩ := h.step (fun location hc ↦
          ⟨fun heq ↦ hzero (heq ▸ (hadded location hc).1),
            fun i hi heq ↦ hnew i hi (heq ▸ (hadded location hc).1)⟩) hok hs
        refine ⟨⟨l', h'.isList, h'.shows⟩, ih h' (hdistinct.sublist hsub)
          (fun hmem ↦ hzero (hsub.subset hmem)) fun i hi hmem ↦ ?_⟩
        rcases hold i hi with ⟨j, hj, hjloc⟩ | hc
        · exact hnew j hj (hjloc ▸ hsub.subset hmem)
        · exact (hadded _ hc).2 hmem
      constructor
      · rintro ⟨hc, hsteps⟩
        have hok := h.syncOk hc
        exact ⟨hok, fun s' hs ↦ (hrest hok s' hs).2.mp (hsteps s' hs)⟩
      · rintro ⟨hok, hsteps⟩
        exact ⟨fun s' hs ↦ (hrest hok s' hs).1, fun s' hs ↦ (hrest hok s' hs).2.mpr (hsteps s' hs)⟩

theorem displays_start (video : Nat → BitVec 8) : (start video).Displays [] :=
  ⟨.nil, fun _ hi ↦ (nomatch hi), fun _ hi ↦ (nomatch hi), fun _ hi ↦ (nomatch hi)⟩

/-- **What blinks is the state.**  In a run that adds different locations, none of them 0, every
entry is shown as its STATUS says in every state, if and only if every sync is from an entry that is
off or to one whose characters are the same. -/
theorem blink_shows_iff (video : Nat → BitVec 8) (calls : List FishCall)
    (hdistinct : (calls.filterMap FishCall.added).Nodup)
    (hzero : 0 ∉ calls.filterMap FishCall.added) :
    Along next Shows (start video) calls ↔ AllSteps next SyncOk (start video) calls := by
  have hstart := displays_start video
  rw [along_iff, and_iff_right ⟨[], hstart.isList, hstart.shows⟩]
  exact hstart.shows_iff hdistinct hzero fun i hi ↦ (nomatch hi)

/-- One entry, which goes off at the first tick and on at the second. -/
theorem blink_shows_tasklet :
    Along next Shows (start fun _ ↦ 0)
      [.add ⟨40, 0x6F, 0x2E, 1, 1, 0, 0, 0⟩, .tasklet, .tasklet] := by
  refine (blink_shows_iff (fun _ ↦ 0) _ (by decide) (by decide)).mpr ?_
  have hno : ∀ (s : Fish) (c : FishCall), (∀ arg, c ≠ .sync arg) → s.SyncOk c :=
    fun s c hc l arg _ heq ↦ absurd heq (hc arg)
  refine ⟨hno _ _ (fun _ heq ↦ nomatch heq), fun s _ ↦ ⟨hno s _ (fun _ heq ↦ nomatch heq), ?_⟩⟩
  exact fun s _ ↦ ⟨hno s _ (fun _ heq ↦ nomatch heq), fun _ _ ↦ trivial⟩

/-- A sync from the entry that was added first to the one that was added next, before any tick. -/
theorem not_syncOk_of_adds (video : Nat → BitVec 8) {user user' : Mp1BlinkStruct (BitVec 32)}
    {arg : BitVec 32} (hlt : user.location.toNat < 80 * 25) (hlt' : user'.location.toNat < 80 * 25)
    (hne : user.location ≠ 0) (hsrc : user.location = (arg >>> 16).setWidth 16)
    (hdst : user'.location = (arg &&& 0xFFFF).setWidth 16) (hchar : user'.onChar ≠ user'.offChar) :
    ¬ AllSteps next SyncOk (start video) [.add user, .add user', .sync arg] := by
  obtain ⟨i, hi⟩ := exists_mp1Malloc (s := start video) ⟨0, rfl⟩
  have hs := mp1IoctlAdd_of_lt hlt hi
  have hl := isList_insertAt (displays_start video).isList (List.not_mem_nil (a := i))
    { user with status := 1, countdown := user.onLength }
  generalize hs₁ : (start video).insertAt i { user with status := 1, countdown := user.onLength } = s₁
    at hs hl
  have hself : s₁.blinkArray i = { user with
      status := 1
      countdown := user.onLength
      next := (start video).mp1ListHead } := by
    rw [← hs₁, insertAt_self]
  have hmark : ∀ k ∈ [i], (s₁.blinkArray k).location ≠ 0 := by
    intro k hk
    rw [List.mem_singleton.mp hk, hself]
    exact hne
  obtain ⟨k, hk⟩ : ∃ k : BlinkSlot, k ≠ i := exists_ne i
  obtain ⟨j, hj⟩ := exists_mp1Malloc (s := s₁) ⟨k, by rw [← hs₁, insertAt_of_ne _ _ hk]; rfl⟩
  have hji := notMem_of_mp1Malloc hmark j hj
  have hs' := mp1IoctlAdd_of_lt hlt' hj
  have hl' := isList_insertAt hl hji { user' with status := 1, countdown := user'.onLength }
  rintro ⟨-, hsteps⟩
  obtain ⟨-, hsteps⟩ := hsteps s₁ (congrArg some (congrArg Prod.snd hs))
  obtain ⟨hok, -⟩ := hsteps _ (congrArg some (congrArg Prod.snd hs'))
  have hold : (s₁.insertAt j { user' with status := 1, countdown := user'.onLength }).blinkArray i =
      s₁.blinkArray i := insertAt_of_ne s₁ _ fun heq ↦ hji (heq ▸ List.mem_singleton_self i)
  rcases hok [j, i] arg hl' rfl i (by simp) j (by simp) (by rw [hold, hself]; exact hsrc)
    (by rw [insertAt_self]; exact hdst) with hoff | hsame
  · rw [hold, hself] at hoff
    exact absurd hoff (show ¬ (1 : BitVec 16) &&& 1 = 0 by decide)
  · rw [insertAt_self] at hsame
    exact hchar hsame

/-- The sync of `main` in `fish.c` from location 40 to 540, with 40 added before. -/
theorem blink_shows_sync :
    ¬ Along next Shows (start fun _ ↦ 0)
      [.add ⟨40, 0x6F, 0x2E, 15, 15, 0, 0, 0⟩, .add ⟨540, 0x49, 0x4D, 7, 6, 0, 0, 0⟩,
        .sync 0x0028021C] := by
  intro halong
  have hsteps := ((displays_start fun _ ↦ 0).shows_iff (by decide) (by decide)
    fun i hi ↦ (nomatch hi)).mp (along_iff.mp halong).2
  exact not_syncOk_of_adds _ (by decide) (by decide) (by decide) (by decide) (by decide) (by decide)
    hsteps

end Fish

end Illinix
