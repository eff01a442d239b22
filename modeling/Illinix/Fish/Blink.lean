import Illinix.Base.Links

/-!
# The blinking characters of the fish program

The fish program keeps the characters that blink in `blink_array`, an entry for each cell of the
screen.  The entries in use are linked through `next` into a list that `blink.S` walks: at each tick
of the clock (`mp1RtcTasklet`), to find the entry of a location, and to find the link to an entry that
is removed.  `mp1_malloc` takes an entry to be free if its location is 0.

A pointer to an entry is its index, with `none` for the null pointer.  A walk takes the number of
entries as fuel; it is `none` when it goes on after that many links, which are then a cycle.
-/

namespace Illinix

/-- An index into `blink_array`. -/
abbrev BlinkSlot := Fin (80 * 25)

/-- `struct mp1_blink_struct`, with the type of its pointer `next`. -/
structure Mp1BlinkStruct (Ptr : Type) where
  location : BitVec 16
  onChar : BitVec 8
  offChar : BitVec 8
  onLength : BitVec 16
  offLength : BitVec 16
  countdown : BitVec 16
  status : BitVec 16
  next : Ptr

/-- An entry of `blink_array`. -/
abbrev BlinkNode := Mp1BlinkStruct (Option BlinkSlot)

/-- The entry that `mp1_free` leaves. -/
def BlinkNode.zero : BlinkNode := ⟨0, 0, 0, 0, 0, 0, 0, none⟩

/-- The variables of the fish program, and the video memory that it writes to. -/
structure Fish where
  mp1ListHead : Option BlinkSlot
  blinkArray : BlinkSlot → BlinkNode
  video : Nat → BitVec 8

namespace Fish

variable (s : Fish)

/-- `main` clears `blink_array` before anything else. -/
def start (video : Nat → BitVec 8) : Fish := ⟨none, fun _ ↦ BlinkNode.zero, video⟩

/-- Stores to one entry. -/
def modify (i : BlinkSlot) (f : BlinkNode → BlinkNode) : Fish :=
  { s with blinkArray := Function.update s.blinkArray i (f (s.blinkArray i)) }

/-- `mp1_poke` at the cell of a location, which has two bytes. -/
def mp1Poke (location : BitVec 16) (cl : BitVec 8) : Fish :=
  { s with video := Function.update s.video (2 * location.toNat) cl }

/-- `mp1_malloc`. -/
def mp1Malloc : Option BlinkSlot :=
  (List.finRange (80 * 25)).find? fun i ↦ (s.blinkArray i).location == 0

/-- `mp1_free`. -/
def mp1Free (i : BlinkSlot) : Fish := s.modify i fun _ ↦ BlinkNode.zero

/-- The loop of `mp1_find_helper`. -/
def findLoop (ax : BitVec 16) : Nat → Option BlinkSlot → Option (Option BlinkSlot)
  | _, none => some none
  | 0, some _ => none
  | fuel + 1, some ebx =>
      if (s.blinkArray ebx).location = ax then some (some ebx)
      else findLoop ax fuel (s.blinkArray ebx).next

/-- `mp1_find_helper`. -/
def mp1FindHelper (ax : BitVec 16) : Option (Option BlinkSlot) :=
  s.findLoop ax (80 * 25) s.mp1ListHead

/-! ## The calls -/

/-- The second half of `mp1_ioctl_add`: the structure is copied to the entry `edx`, which becomes
the head of the list, and displayed.  The copy's own NEXT is overwritten at once. -/
def insertAt (edx : BlinkSlot) (temp : Mp1BlinkStruct (BitVec 32)) : Fish :=
  let s' := s.modify edx fun _ ↦ { temp with next := s.mp1ListHead }
  { s' with mp1ListHead := some edx }.mp1Poke temp.location temp.onChar

/-- `mp1_ioctl_add`; `user` is the caller's structure. -/
def mp1IoctlAdd (user : Mp1BlinkStruct (BitVec 32)) : Int × Fish :=
  -- `ece391_memcpy` returns 0
  if 80 * 25 ≤ user.location.toNat then (-1, s)
  else
    match s.mp1Malloc with
    | none => (-1, s)
    | some edx => (0, s.insertAt edx { user with status := 1, countdown := user.onLength })

/-- What the pointer at a place holds: `mp1_list_head`, or the NEXT of an entry. -/
def link : Option BlinkSlot → Option BlinkSlot
  | none => s.mp1ListHead
  | some i => (s.blinkArray i).next

@[simp] theorem link_none : s.link none = s.mp1ListHead := rfl

@[simp] theorem link_some (i : BlinkSlot) : s.link (some i) = (s.blinkArray i).next := rfl

/-- A store to the pointer at a place. -/
def setLink (edx ecx : Option BlinkSlot) : Fish :=
  match edx with
  | none => { s with mp1ListHead := ecx }
  | some i => s.modify i fun node ↦ { node with next := ecx }

/-- The loop at `remove_find_prev`; past the end of the list it reads through a null pointer. -/
def removeFindPrev (eax : BlinkSlot) : Nat → Option BlinkSlot → Option (Option BlinkSlot)
  | 0, _ => none
  | fuel + 1, edx =>
      if s.link edx = some eax then some edx
      else (s.link edx).bind fun i ↦ removeFindPrev eax fuel (some i)

/-- `mp1_ioctl_remove`. -/
def mp1IoctlRemove (arg : BitVec 32) : Option (Int × Fish) :=
  (s.mp1FindHelper (arg.setWidth 16)).bind fun found ↦
    match found with
    | none => some (-1, s)
    | some eax => (s.removeFindPrev eax (80 * 25) none).map fun edx ↦
        (0, (s.setLink edx (s.blinkArray eax).next).mp1Free eax)

/-- The character that `mp1_ioctl_sync` displays.  `testb` clears the overflow flag, so the
condition `l` of the move is the sign flag. -/
def syncChar (node : BlinkNode) : BitVec 8 :=
  if (node.status.setWidth 8 &&& 1).msb then node.onChar else node.offChar

/-- The copy of `mp1_ioctl_sync` from `esi` to `edi`, and the display. -/
def syncCopy (esi edi : BlinkSlot) : Fish :=
  let src := s.blinkArray esi
  let s' := s.modify edi fun node ↦
    { node with
      onLength := src.onLength
      offLength := src.offLength
      countdown := src.countdown
      status := src.status }
  s'.mp1Poke (s'.blinkArray edi).location (syncChar (s'.blinkArray edi))

/-- `mp1_ioctl_sync`. -/
def mp1IoctlSync (arg : BitVec 32) : Option (Int × Fish) :=
  (s.mp1FindHelper ((arg >>> 16).setWidth 16)).bind fun first ↦
    match first with
    | none => some (-1, s)
    | some esi => (s.mp1FindHelper ((arg &&& 0xFFFF).setWidth 16)).map fun second ↦
        match second with
        | none => (-1, s)
        | some edi => (0, s.syncCopy esi edi)

/-- `mp1_ioctl_find`; `location` is the caller's, and what is found is copied to the caller. -/
def mp1IoctlFind (location : BitVec 16) : Option (Int × Option BlinkNode) :=
  (s.mp1FindHelper location).map fun found ↦
    match found with
    | none => (-1, none)
    | some eax => (0, some (s.blinkArray eax))

/-! ## The tasklet -/

/-- The body of `tasklet_loop`. -/
def blink (ebx : BlinkSlot) : Fish :=
  let node := s.blinkArray ebx
  let countdown := node.countdown - 1
  if 0 < countdown.toInt then s.modify ebx fun node ↦ { node with countdown := countdown }
  else
    let on := node.status &&& 1 ≠ 0
    let s' := s.mp1Poke node.location (if on then node.offChar else node.onChar)
    s'.modify ebx fun node ↦
      { node with
        countdown := if on then node.offLength else node.onLength
        status := node.status ^^^ 1 }

/-- `tasklet_loop`. -/
def taskletLoop : Nat → Option BlinkSlot → Fish → Option Fish
  | _, none, s => some s
  | 0, some _, _ => none
  | fuel + 1, some ebx, s =>
      taskletLoop fuel ((s.blink ebx).blinkArray ebx).next (s.blink ebx)

/-- `mp1_rtc_tasklet`. -/
def mp1RtcTasklet : Option Fish := taskletLoop (80 * 25) s.mp1ListHead s

end Fish

end Illinix
