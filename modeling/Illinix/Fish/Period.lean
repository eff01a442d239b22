import Illinix.Fish.BlinkShow

/-!
# The period of an entry

The tasklet counts the COUNTDOWN of an entry down at each tick, and when it has come to 0 the entry
goes to its other state for the length of that one.  `blink_period` says what comes of this over a
run: an entry is on for its ON_LENGTH, then off for its OFF_LENGTH, and so on, whatever else is
added, removed, searched for and copied in between, as long as it is not about this location.

A length is compared as a signed number, and only after 1 was taken off; `duration` is the number of
ticks that it stands for.
-/

namespace Illinix

open Base

/-- The number of ticks for which a state with this length lasts. -/
def duration (length : BitVec 16) : Nat := if 0 < (length - 1).toInt then length.toNat else 1

example : [15, 1, 0, 0xFFFF, 0x8000].map duration = [15, 1, 1, 1, 32768] := by decide

theorem duration_pos (length : BitVec 16) : 0 < duration length := by
  rw [duration]
  split
  · rename_i h
    refine Nat.pos_of_ne_zero fun hzero ↦ ?_
    rw [BitVec.eq_of_toNat_eq (y := 0) hzero] at h
    exact absurd h (by decide)
  · exact Nat.one_pos

theorem toInt_pos_iff (x : BitVec 16) : 0 < x.toInt ↔ 0 < x.toNat ∧ x.toNat < 0x8000 := by
  rw [BitVec.toInt_eq_toNat_cond]
  have hlt := x.isLt
  split <;> omega

/-- The COUNTDOWN within a state. -/
theorem countdown_pos_iff {length : BitVec 16} {r : Nat} (h : r < duration length) :
    0 < (length - BitVec.ofNat 16 r - 1).toInt ↔ r + 1 < duration length := by
  rw [duration] at h ⊢
  split at h
  · rename_i hlen
    rw [if_pos hlen]
    rw [toInt_pos_iff] at hlen ⊢
    bv_omega
  · rename_i hlen
    rw [if_neg hlen]
    obtain rfl := Nat.lt_one_iff.mp h
    refine iff_of_false ?_ (by omega)
    rwa [show length - BitVec.ofNat 16 0 - 1 = length - 1 by bv_omega]

/-- What the tasklet makes of an entry. -/
def BlinkNode.tick (node : BlinkNode) : BlinkNode :=
  if 0 < (node.countdown - 1).toInt then { node with countdown := node.countdown - 1 }
  else
    { node with
      countdown := if node.status &&& 1 ≠ 0 then node.offLength else node.onLength
      status := node.status ^^^ 1 }

/-- The entry for `user` in the state ON, since `r` ticks. -/
def onNode (user : Mp1BlinkStruct (BitVec 32)) (r : Nat) (next : Option BlinkSlot) : BlinkNode :=
  { user with status := 1, countdown := user.onLength - BitVec.ofNat 16 r, next := next }

/-- The entry for `user` in the state OFF, since `r` ticks. -/
def offNode (user : Mp1BlinkStruct (BitVec 32)) (r : Nat) (next : Option BlinkSlot) : BlinkNode :=
  { user with status := 0, countdown := user.offLength - BitVec.ofNat 16 r, next := next }

/-- Whether an entry is on, `t` ticks after it was added. -/
def Mp1BlinkStruct.OnAt {Ptr : Type} (user : Mp1BlinkStruct Ptr) (t : Nat) : Prop :=
  t % (duration user.onLength + duration user.offLength) < duration user.onLength

instance {Ptr : Type} (user : Mp1BlinkStruct Ptr) (t : Nat) : Decidable (user.OnAt t) :=
  inferInstanceAs (Decidable (_ < _))

/-- The entry for `user`, `t` ticks after it was added. -/
def nodeAt (user : Mp1BlinkStruct (BitVec 32)) (t : Nat) (next : Option BlinkSlot) : BlinkNode :=
  let on := duration user.onLength
  let r := t % (on + duration user.offLength)
  if r < on then onNode user r next else offNode user (r - on) next

variable {user : Mp1BlinkStruct (BitVec 32)} {t : Nat}

theorem nodeAt_location (next : Option BlinkSlot) :
    (nodeAt user t next).location = user.location := by
  rw [nodeAt]
  split <;> rfl

theorem nodeAt_next (next next' : Option BlinkSlot) :
    { nodeAt user t next with next := next' } = nodeAt user t next' := by
  rw [nodeAt, nodeAt]
  dsimp only
  split <;> rfl

theorem nodeAt_char (next : Option BlinkSlot) :
    (nodeAt user t next).char = if user.OnAt t then user.onChar else user.offChar := by
  rw [BlinkNode.char, nodeAt]
  by_cases h : t % (duration user.onLength + duration user.offLength) < duration user.onLength
  · rw [if_pos h]
    exact (if_pos (show (1 : BitVec 16) &&& 1 ≠ 0 by decide)).trans (if_pos h).symm
  · rw [if_neg h]
    exact (if_neg (show ¬ (0 : BitVec 16) &&& 1 ≠ 0 by decide)).trans (if_neg h).symm

theorem sub_ofNat_succ (length : BitVec 16) (r : Nat) :
    length - BitVec.ofNat 16 r - 1 = length - BitVec.ofNat 16 (r + 1) := by bv_omega

theorem sub_ofNat_zero (length : BitVec 16) : length - BitVec.ofNat 16 0 = length := by bv_omega

theorem tick_onNode {r : Nat} (h : r < duration user.onLength) (next : Option BlinkSlot) :
    (onNode user r next).tick =
      if r + 1 < duration user.onLength then onNode user (r + 1) next
      else offNode user 0 next := by
  rw [BlinkNode.tick, onNode]
  dsimp only
  split
  · rename_i hcount
    rw [if_pos ((countdown_pos_iff h).mp hcount), onNode, sub_ofNat_succ]
  · rename_i hcount
    rw [if_neg (mt (countdown_pos_iff h).mpr hcount), offNode, sub_ofNat_zero,
      if_pos (show (1 : BitVec 16) &&& 1 ≠ 0 by decide), show (1 : BitVec 16) ^^^ 1 = 0 by decide]

theorem tick_offNode {r : Nat} (h : r < duration user.offLength) (next : Option BlinkSlot) :
    (offNode user r next).tick =
      if r + 1 < duration user.offLength then offNode user (r + 1) next
      else onNode user 0 next := by
  rw [BlinkNode.tick, offNode]
  dsimp only
  split
  · rename_i hcount
    rw [if_pos ((countdown_pos_iff h).mp hcount), offNode, sub_ofNat_succ]
  · rename_i hcount
    rw [if_neg (mt (countdown_pos_iff h).mpr hcount), onNode, sub_ofNat_zero,
      if_neg (show ¬ (0 : BitVec 16) &&& 1 ≠ 0 by decide), show (0 : BitVec 16) ^^^ 1 = 1 by decide]

/-- **A tick.** -/
theorem tick_nodeAt (next : Option BlinkSlot) :
    (nodeAt user t next).tick = nodeAt user (t + 1) next := by
  have hon := duration_pos user.onLength
  rw [nodeAt, nodeAt, ← Nat.mod_add_mod t _ 1]
  have hr := Nat.mod_lt t (Nat.add_pos_left hon (duration user.offLength))
  generalize t % (duration user.onLength + duration user.offLength) = r at hr ⊢
  by_cases hlt : r < duration user.onLength
  · have hoff := duration_pos user.offLength
    rw [if_pos hlt, tick_onNode hlt, Nat.mod_eq_of_lt (by omega)]
    split
    · rfl
    · rw [show r + 1 - duration user.onLength = 0 by omega]
  · rw [if_neg hlt, tick_offNode (by omega)]
    by_cases hmore : r + 1 < duration user.onLength + duration user.offLength
    · rw [if_pos (by omega), Nat.mod_eq_of_lt hmore, if_neg (by omega),
        show r - duration user.onLength + 1 = r + 1 - duration user.onLength by omega]
    · rw [if_neg (by omega), show r + 1 = duration user.onLength + duration user.offLength by omega,
        Nat.mod_self, if_pos hon]

def FishCall.isTick : FishCall → Bool
  | .tasklet => true
  | _ => false

/-- The calls that are not about a location, and do not break the list. -/
def FishCall.Avoids (location : BitVec 16) : FishCall → Prop
  | .add user => user.location ≠ 0 ∧ user.location ≠ location
  | .remove arg => arg.setWidth 16 ≠ location
  | .sync arg => (arg &&& 0xFFFF).setWidth 16 ≠ location
  | _ => True

namespace Fish

variable {s s' : Fish} {l : List BlinkSlot} {i j : BlinkSlot}

theorem blink_self (s : Fish) (i : BlinkSlot) :
    (s.blink i).blinkArray i = (s.blinkArray i).tick := by
  rw [blink, BlinkNode.tick]
  dsimp only
  split
  · exact modify_self s i _
  · exact modify_self _ i _

/-- The entry `i` of the list was added for `user`, `t` ticks ago, and no other entry has its
location. -/
structure Blinks (s : Fish) (user : Mp1BlinkStruct (BitVec 32)) (t : Nat) (l : List BlinkSlot)
    (i : BlinkSlot) : Prop where
  isList : s.IsList l
  mem : i ∈ l
  marked : ∀ j ∈ l, (s.blinkArray j).location ≠ 0
  only : ∀ j ∈ l, j ≠ i → (s.blinkArray j).location ≠ user.location
  entry : s.blinkArray i = nodeAt user t (s.link (some i))
  shows : s.ShowsNode i

namespace Blinks

theorem location (h : s.Blinks user t l i) : (s.blinkArray i).location = user.location := by
  rw [h.entry, nodeAt_location]

theorem location_ne (h : s.Blinks user t l i) : user.location ≠ 0 :=
  h.location ▸ h.marked i h.mem

/-- What is in the cell. -/
theorem charAt (h : s.Blinks user t l i) :
    s.charAt user.location = if user.OnAt t then user.onChar else user.offChar := by
  have hshows := h.shows
  rwa [ShowsNode, h.location, h.entry, nodeAt_char] at hshows

/-- A change to another entry. -/
theorem of_draws (h : s.Blinks user t l i) (hdraws : s.Draws s' j) (hij : i ≠ j)
    (hloc : user.location ≠ (s'.blinkArray j).location) :
    s'.blinkArray i = nodeAt user t (s'.link (some i)) ∧ s'.ShowsNode i := by
  refine ⟨?_, hdraws.shows_of_ne hij (h.location ▸ hloc) h.shows⟩
  rw [hdraws.entry i hij, h.entry, nodeAt_next]

/-- A change to another entry that keeps the list. -/
theorem sameShape (h : s.Blinks user t l i) (hshape : s.SameShape s') (hdraws : s.Draws s' j)
    (hj : j ∈ l) (hij : i ≠ j) : s'.Blinks user t l i := by
  obtain ⟨hentry, hshows⟩ := h.of_draws hdraws hij (by
    rw [hshape.location]
    exact (h.only j hj hij.symm).symm)
  refine ⟨hshape.isList h.isList, h.mem, fun k hk ↦ ?_, fun k hk hki ↦ ?_, hentry, hshows⟩
  · rw [hshape.location]
    exact h.marked k hk
  · rw [hshape.location]
    exact h.only k hk hki

theorem foldl_other (h : s.Blinks user t l i) {l' : List BlinkSlot} (hl' : ∀ j ∈ l', j ∈ l)
    (hi : i ∉ l') : (l'.foldl Fish.blink s).Blinks user t l i := by
  induction l' generalizing s with
  | nil => exact h
  | cons j l' ih =>
      have hij : i ≠ j := fun heq ↦ hi (heq ▸ List.mem_cons_self)
      have hj := h.sameShape (sameShape_blink s j) (draws_blink s j) (hl' j List.mem_cons_self) hij
      exact ih hj (fun k hk ↦ hl' k (List.mem_cons_of_mem j hk))
        fun hmem ↦ hi (List.mem_cons_of_mem j hmem)

theorem blink (h : s.Blinks user t l i) : (s.blink i).Blinks user (t + 1) l i := by
  have hshape := sameShape_blink s i
  refine ⟨hshape.isList h.isList, h.mem, fun k hk ↦ ?_, fun k hk hki ↦ ?_, ?_, shows_blink h.shows⟩
  · rw [hshape.location]
    exact h.marked k hk
  · rw [hshape.location]
    exact h.only k hk hki
  · rw [blink_self, h.entry, tick_nodeAt, hshape.link]

/-- **The tasklet** comes to the entry once. -/
theorem foldl (h : s.Blinks user t l i) : (l.foldl Fish.blink s).Blinks user (t + 1) l i := by
  obtain ⟨l₁, l₂, hl⟩ := List.append_of_mem h.mem
  have hmem : ∀ j, j ∈ l ↔ j ∈ l₁ ∨ j = i ∨ j ∈ l₂ := fun j ↦ by
    rw [hl, List.mem_append, List.mem_cons]
  have hnodup := h.isList.nodup
  rw [hl, List.nodup_append, List.nodup_cons] at hnodup
  have hi₁ : i ∉ l₁ := fun hi ↦ hnodup.2.2 i hi i List.mem_cons_self rfl
  have hbefore := h.foldl_other (fun j hj ↦ (hmem j).mpr (.inl hj)) hi₁
  have hafter := hbefore.blink.foldl_other (fun j hj ↦ (hmem j).mpr (.inr (.inr hj)))
    hnodup.2.1.1
  rwa [← List.foldl_cons, ← List.foldl_append, ← hl] at hafter

theorem insertAt (h : s.Blinks user t l i) (hj : j ∉ l) {temp : Mp1BlinkStruct (BitVec 32)}
    (hne : temp.location ≠ 0) (hloc : temp.location ≠ user.location) :
    (s.insertAt j temp).Blinks user t (j :: l) i := by
  have hij : i ≠ j := fun heq ↦ hj (heq ▸ h.mem)
  have hnew : ((s.insertAt j temp).blinkArray j).location = temp.location := by
    rw [insertAt_self]
  have hold (k : BlinkSlot) (hk : k ∈ l) : (s.insertAt j temp).blinkArray k = s.blinkArray k :=
    insertAt_of_ne s temp fun heq ↦ hj (heq ▸ hk)
  obtain ⟨hentry, hshows⟩ := h.of_draws (draws_insertAt s j temp) hij (hnew ▸ hloc.symm)
  refine ⟨isList_insertAt h.isList hj temp, List.mem_cons_of_mem j h.mem, ?_, ?_, hentry, hshows⟩
  · rw [List.forall_mem_cons, hnew]
    exact ⟨hne, fun k hk ↦ hold k hk ▸ h.marked k hk⟩
  · rw [List.forall_mem_cons, hnew]
    exact ⟨fun _ ↦ hloc, fun k hk hki ↦ hold k hk ▸ h.only k hk hki⟩

theorem mp1Free (h : s.Blinks user t l i) (hj : j ∈ l) (hij : i ≠ j) :
    ((s.setLink (prior j none l) (s.link (some j))).mp1Free j).Blinks user t (l.erase j) i := by
  have hdraws := draws_mp1Free s (prior j none l) (s.link (some j)) j
  have hmem (k : BlinkSlot) (hk : k ∈ l.erase j) : k ≠ j ∧ k ∈ l :=
    h.isList.nodup.mem_erase_iff.mp hk
  obtain ⟨hentry, hshows⟩ := h.of_draws hdraws hij (by
    -- the freed entry has location 0
    rw [Fish.mp1Free, modify_self]
    exact h.location_ne)
  refine ⟨isList_mp1Free h.isList hj, h.isList.nodup.mem_erase_iff.mpr ⟨hij, h.mem⟩,
    fun k hk ↦ ?_, fun k hk hki ↦ ?_, hentry, hshows⟩
  · rw [hdraws.entry k (hmem k hk).1]
    exact h.marked k (hmem k hk).2
  · rw [hdraws.entry k (hmem k hk).1]
    exact h.only k (hmem k hk).2 hki

/-- An entry that a search for another location has found. -/
theorem ne_of_find (h : s.Blinks user t l i) {ax : BitVec 16} (hax : ax ≠ user.location)
    (hfind : s.mp1FindHelper ax = some (some j)) : j ∈ l ∧ i ≠ j := by
  rw [mp1FindHelper_eq h.isList, Option.some.injEq] at hfind
  have hloc := List.find?_some hfind
  refine ⟨List.mem_of_find?_eq_some hfind, fun heq ↦ hax ?_⟩
  rw [← of_decide_eq_true hloc, ← heq, h.location]

/-- Step lemma. -/
theorem step (h : s.Blinks user t l i) {c : FishCall} (hc : c.Avoids user.location) :
    ∃ s' l', s.next c = some s' ∧ s'.Blinks user (t + if c.isTick then 1 else 0) l' i := by
  cases c with
  | add user' =>
      obtain ⟨hne, hloc⟩ := hc
      rcases mp1IoctlAdd_cases s user' with hfail | ⟨j, hj, hadd⟩
      · exact ⟨s, l, by rw [next, call, hfail]; rfl, h⟩
      · exact ⟨s.insertAt j { user' with status := 1, countdown := user'.onLength }, j :: l,
          by rw [next, call, hadd]; rfl, h.insertAt (notMem_of_mp1Malloc h.marked j hj) hne hloc⟩
  | remove arg =>
      rcases mp1IoctlRemove_cases h.isList arg with hfail | ⟨j, hj, hloc, hremove⟩
      · exact ⟨s, l, by rw [next, call, hfail]; rfl, h⟩
      · refine ⟨_, l.erase j, by rw [next, call, hremove]; rfl, h.mp1Free hj fun heq ↦ hc ?_⟩
        rw [← hloc, ← heq, h.location]
  | find location =>
      refine ⟨s, l, ?_, h⟩
      rw [next, call, mp1IoctlFind, mp1FindHelper_eq h.isList]
      rfl
  | sync arg =>
      rcases mp1IoctlSync_cases h.isList arg with hfail | ⟨esi, edi, -, hedi, hsync⟩
      · exact ⟨s, l, by rw [next, call, hfail]; rfl, h⟩
      · obtain ⟨hmem, hij⟩ := h.ne_of_find hc hedi
        exact ⟨_, l, by rw [next, call, hsync]; rfl,
          h.sameShape (sameShape_syncCopy s esi edi) (draws_syncCopy s esi edi) hmem hij⟩
  | tasklet =>
      refine ⟨_, l, ?_, h.foldl⟩
      rw [next, call, mp1RtcTasklet_eq h.isList]
      rfl

/-- Run lemma. -/
theorem exec (h : s.Blinks user t l i) {calls : List FishCall}
    (hcalls : ∀ c ∈ calls, c.Avoids user.location) :
    ∃ s' l', Base.exec next s calls = some s' ∧
      s'.Blinks user (t + calls.countP FishCall.isTick) l' i := by
  induction calls generalizing s t l with
  | nil => exact ⟨s, l, rfl, h⟩
  | cons c calls ih =>
      rw [List.forall_mem_cons] at hcalls
      obtain ⟨s₁, l₁, hs₁, h₁⟩ := h.step hcalls.1
      obtain ⟨s', l', hs', h'⟩ := ih h₁ hcalls.2
      refine ⟨s', l', exec_cons_eq_some.mpr ⟨s₁, hs₁, hs'⟩, ?_⟩
      rwa [List.countP_cons, Nat.add_comm (calls.countP _), ← Nat.add_assoc]

/-- An entry that was just added. -/
theorem of_add (hl : s.IsList l) (hmark : ∀ j ∈ l, (s.blinkArray j).location ≠ 0)
    (hne : user.location ≠ 0) (hnew : ∀ j ∈ l, (s.blinkArray j).location ≠ user.location)
    (hi : s.mp1Malloc = some i) {temp : Mp1BlinkStruct (BitVec 32)}
    (htemp : temp = { user with status := 1, countdown := user.onLength }) :
    (s.insertAt i temp).Blinks user 0 (i :: l) i := by
  have hil := notMem_of_mp1Malloc hmark i hi
  have hstatus : temp.status = 1 := by rw [htemp]
  have hloc : ((s.insertAt i temp).blinkArray i).location = user.location := by
    rw [insertAt_self, htemp]
  have hold (j : BlinkSlot) (hj : j ∈ l) : (s.insertAt i temp).blinkArray j = s.blinkArray j :=
    insertAt_of_ne s temp fun heq ↦ hil (heq ▸ hj)
  refine ⟨isList_insertAt hl hil _, List.mem_cons_self, ?_, ?_, ?_, shows_insertAt s i hstatus⟩
  · rw [List.forall_mem_cons, hloc]
    exact ⟨hne, fun j hj ↦ hold j hj ▸ hmark j hj⟩
  · rw [List.forall_mem_cons]
    exact ⟨fun h ↦ absurd rfl h, fun j hj _ ↦ hold j hj ▸ hnew j hj⟩
  · rw [link_some, insertAt_self, nodeAt, Nat.zero_mod, if_pos (duration_pos _), onNode,
      sub_ofNat_zero, htemp]

end Blinks

/-- A run that adds nothing for location 0. -/
theorem Marked.exec (h : s.Marked) {calls : List FishCall} (hcalls : ∀ c ∈ calls, c.added ≠ some 0)
    (hs : Base.exec next s calls = some s') : s'.Marked := by
  induction calls generalizing s with
  | nil => exact Option.some.inj hs ▸ h
  | cons c calls ih =>
      rw [List.forall_mem_cons] at hcalls
      obtain ⟨s₁, hs₁, hrest⟩ := exec_cons_eq_some.mp hs
      refine ih (h.step ?_ hs₁) hcalls.2 hrest
      rintro user rfl hzero
      exact absurd (congrArg some hzero) hcalls.1

/-- **An entry blinks with its own period.**  Let a run that adds nothing at location 0 come to a
state in which no entry has some location, and let one be added there.  Whatever calls follow that
are not about this location and add nothing at 0, they return, and the cell shows the ON_CHAR of the
entry for the `duration` of its ON_LENGTH, then its OFF_CHAR for that of its OFF_LENGTH, and so
on. -/
theorem blink_period (video : Nat → BitVec 8) (before after : List FishCall)
    (user : Mp1BlinkStruct (BitVec 32)) {s₀ s₁ : Fish}
    (hbefore : exec next (start video) before = some s₀)
    (hmarked : ∀ c ∈ before, c.added ≠ some 0) (hne : user.location ≠ 0)
    (hnew : s₀.mp1FindHelper user.location = some none)
    (hadd : s₀.call (.add user) = some (0, s₁)) (hafter : ∀ c ∈ after, c.Avoids user.location) :
    ∃ s, exec next s₁ after = some s ∧ s.charAt user.location =
      if user.OnAt (after.countP FishCall.isTick) then user.onChar else user.offChar := by
  obtain ⟨l, hl, hmark⟩ := (marked_start video).exec hmarked hbefore
  have hnone : ∀ j ∈ l, (s₀.blinkArray j).location ≠ user.location := by
    rw [mp1FindHelper_eq hl, Option.some.injEq, List.find?_eq_none] at hnew
    exact fun j hj heq ↦ hnew j hj (decide_eq_true heq)
  have hblinks : ∃ i l', s₁.Blinks user 0 l' i := by
    rw [call, Option.some.injEq] at hadd
    rcases mp1IoctlAdd_cases s₀ user with hfail | ⟨i, hi, hok⟩
    · rw [hfail, Prod.mk.injEq] at hadd
      exact absurd hadd.1 (by decide)
    · rw [hok, Prod.mk.injEq] at hadd
      obtain ⟨-, rfl⟩ := hadd
      exact ⟨i, i :: l, Blinks.of_add hl hmark hne hnone hi rfl⟩
  obtain ⟨i, l', h⟩ := hblinks
  obtain ⟨s, l'', hs, h'⟩ := h.exec hafter
  refine ⟨s, hs, ?_⟩
  rw [h'.charAt, Nat.zero_add]

/-- Two ticks on and one off; something else is added between the ticks, and copied to. -/
theorem blink_period_off :
    ∃ s₁, (start fun _ ↦ 0).call (.add ⟨40, 0x6F, 0x2E, 2, 1, 0, 0, 0⟩) = some (0, s₁) ∧
      ∃ s, exec next s₁ [.tasklet, .add ⟨540, 0x49, 0x4D, 7, 6, 0, 0, 0⟩, .sync 0x0028021C,
        .tasklet] = some s ∧ s.charAt 40 = 0x2E := by
  obtain ⟨i, hi⟩ := exists_mp1Malloc (s := start fun _ ↦ 0) ⟨0, rfl⟩
  have hadd : (start fun _ ↦ 0).mp1IoctlAdd ⟨40, 0x6F, 0x2E, 2, 1, 0, 0, 0⟩ = (0, _) :=
    mp1IoctlAdd_of_lt (by decide) hi
  refine ⟨_, congrArg some hadd, ?_⟩
  exact blink_period (fun _ ↦ 0) [] [.tasklet, .add ⟨540, 0x49, 0x4D, 7, 6, 0, 0, 0⟩,
    .sync 0x0028021C, .tasklet] ⟨40, 0x6F, 0x2E, 2, 1, 0, 0, 0⟩ rfl nofun (by decide) rfl
    (congrArg some hadd) (by simp [FishCall.Avoids])

end Fish

end Illinix
