import Illinix.Terminal.Buffer

/-!
# The keyboard handler

`kb_interrupt_do` takes the bytes of the keyboard one at a time.  It keeps a flag for each of
Ctrl, Shift and Alt, and turns the other keys into characters for `terminal_write`, into `clear`
or into a switch of terminals.

A key sends a byte below `0x80` when it is pressed and the same with the top bit when it is
released, an extended key after the prefix `0xE0`.  The handler has no state for the prefix: it
takes `0xE0` for a press of Ctrl, and the byte after it for one of an ordinary key.  And there is
one flag for two keys.  `flags_follow_iff` says which events the flags follow.
-/

namespace Illinix

open Base

/-- The flags of `idt.c`. -/
structure Keyboard where
  capsEnabled : Bool
  shiftPressed : Bool
  ctrlPressed : Bool
  altPressed : Bool
  metaPressed : Bool
  enterPressed : Bool
deriving DecidableEq, Repr

/-- What the handler calls: `terminal_write(0, &character, 1)`, `clear` or `switch_to_tty`. -/
inductive KeyAction
  | terminalWrite (character : UInt8)
  | clear
  | switchToTty (tty : UInt8)
deriving DecidableEq, Repr

/-- `char_map`. -/
def charMap : List UInt8 :=
  "??1234567890-=? qwertyuiop[]\n?asdfghjkl;'`?\\zxcvbnm,./??? ".toList.map fun c ↦
    UInt8.ofNat c.toNat

/-- `char_map_caps`. -/
def charMapCaps : List UInt8 :=
  "??!@#$%^&*()_+? QWERTYUIOP\x7b\x7d\n?ASDFGHJKL:\"~?|ZXCVBNM,.???? ".toList.map fun c ↦
    UInt8.ofNat c.toNat

namespace Keyboard

/-- The initial values. -/
def init : Keyboard := ⟨false, false, false, false, false, false⟩

/-- The character of a key: the letters depend on Shift and Caps Lock, the others on Shift. -/
def character (k : Keyboard) (input : UInt8) : UInt8 :=
  let c := charMap.getD input.toNat 0
  let caps := charMapCaps.getD input.toNat 0
  if c ≤ 0x7a ∧ c ≥ 0x61 then if k.shiftPressed ^^ k.capsEnabled then caps else c
  else if k.shiftPressed then caps else c

/-- The end of `kb_interrupt_do`: a key that has no flag and no case of its own. -/
def otherKey (input : UInt8) (k : Keyboard) : List KeyAction :=
  if k.altPressed ∨ k.ctrlPressed ∨ k.metaPressed then
    (if k.ctrlPressed ∧ input = 0x26 then [.clear] else []) ++
      if input ≤ 61 ∧ input ≥ 59 ∧ k.altPressed then [.switchToTty (input - 59)] else []
  else if input > 58 then []
  else [.terminalWrite (k.character input)]

/-- `kb_interrupt_do`, for the byte read from port `0x60`. -/
def kbInterruptDo (input : UInt8) (k : Keyboard) : Keyboard × List KeyAction :=
  if input ≥ 0x81 ∧ input ≤ 0xD8 then
    let k := if input = 0x9D then { k with ctrlPressed := false } else k
    let k := if input = 0xAA ∨ input = 0xB6 then { k with shiftPressed := false } else k
    let k := if input = 0xB8 then { k with altPressed := false } else k
    (k, [])
  else if input = 42 ∨ input = 54 then ({ k with shiftPressed := true }, [])
  else if input = 0x38 ∨ input = 0x36 then ({ k with altPressed := true }, [])
  else if input = 0x1D ∨ input = 0xE0 then ({ k with ctrlPressed := true }, [])
  else if input = 0x1c then ({ k with enterPressed := true }, [.terminalWrite 0x0a])
  else if input = 0x3A then ({ k with capsEnabled := !k.capsEnabled }, [])
  else if input = 0x0e then (k, [.terminalWrite 8])
  else (k, k.otherKey input)

/-- The terminal that a switch goes to. -/
theorem toNat_lt_of_mem_otherKey {input tty : UInt8} {k : Keyboard}
    (h : .switchToTty tty ∈ k.otherKey input) : tty.toNat < maxTty := by
  rw [otherKey] at h
  split at h
  · rcases List.mem_append.mp h with h | h
    · split at h
      · cases List.mem_singleton.mp h
      · cases h
    · split at h
      · rename_i hrange
        obtain rfl := KeyAction.switchToTty.inj (List.mem_singleton.mp h)
        have hle : input.toNat ≤ 61 := UInt8.le_iff_toNat_le.mp hrange.1
        rw [UInt8.toNat_sub_of_le _ _ hrange.2.1]
        exact Nat.lt_succ_of_le (Nat.sub_le_sub_right hle 59)
      · cases h
  split at h
  · cases h
  · cases List.mem_singleton.mp h

theorem mem_otherKey_of_switchToTty {input tty : UInt8} {k : Keyboard}
    (h : .switchToTty tty ∈ (kbInterruptDo input k).2) : .switchToTty tty ∈ k.otherKey input := by
  rw [kbInterruptDo] at h
  -- a release, the three flags, Enter, Caps Lock and Backspace switch to no terminal
  iterate 7
    split at h
    · first | exact absurd h List.not_mem_nil | cases List.mem_singleton.mp h
  exact h

/-- The flags after some bytes. -/
def feed (k : Keyboard) (bytes : List UInt8) : Keyboard :=
  bytes.foldl (fun k input ↦ (kbInterruptDo input k).1) k

end Keyboard

/-- What an action asks of the terminal driver. -/
def KeyAction.event : KeyAction → Option TtyEvent
  | terminalWrite character => some (.key character)
  | clear => none
  | switchToTty tty => some (.switchTo tty.toNat)

/-- The driver can do what the handler asks for. -/
theorem Keyboard.step_event_isSome {input : UInt8} {k : Keyboard} {a : KeyAction}
    (ha : a ∈ (kbInterruptDo input k).2) {e : TtyEvent} (he : a.event = some e) (s : Tty) :
    (s.step e).isSome := by
  cases a with
  | terminalWrite character =>
      obtain rfl := Option.some.inj he
      rfl
  | clear => cases he
  | switchToTty tty =>
      obtain rfl := Option.some.inj he
      rw [Tty.step, if_pos (toNat_lt_of_mem_otherKey (mem_otherKey_of_switchToTty ha))]
      rfl

/-! ## Keys -/

/-- A key of the keyboard. -/
structure Key where
  extended : Bool
  code : UInt8
  code_pos : 0x01 ≤ code
  code_le : code ≤ 0x58
deriving DecidableEq

/-- A key is pressed or released. -/
structure KeyEvent where
  key : Key
  pressed : Bool
deriving DecidableEq

/-- The bytes that the keyboard sends. -/
def KeyEvent.bytes (e : KeyEvent) : List UInt8 :=
  (if e.key.extended then [0xE0] else []) ++ [if e.pressed then e.key.code else e.key.code ||| 0x80]

/-- The keys that have a flag. -/
inductive Modifier
  | ctrl
  | shift
  | alt
deriving DecidableEq, Repr

namespace Modifier

/-- The two keys of a modifier. -/
def keys : Modifier → List Key
  | ctrl => [⟨false, 0x1D, by decide, by decide⟩, ⟨true, 0x1D, by decide, by decide⟩]
  | shift => [⟨false, 0x2A, by decide, by decide⟩, ⟨false, 0x36, by decide, by decide⟩]
  | alt => [⟨false, 0x38, by decide, by decide⟩, ⟨true, 0x38, by decide, by decide⟩]

/-- The bytes of these keys. -/
def codes (m : Modifier) : List UInt8 := m.keys.map Key.code

/-- One of the two is held down. -/
def Held (m : Modifier) (held : Key → Bool) : Prop := ∃ k ∈ m.keys, held k = true

instance (m : Modifier) (held : Key → Bool) : Decidable (m.Held held) :=
  inferInstanceAs (Decidable (∃ k ∈ m.keys, held k = true))

end Modifier

def Keyboard.flag (k : Keyboard) : Modifier → Bool
  | .ctrl => k.ctrlPressed
  | .shift => k.shiftPressed
  | .alt => k.altPressed

/-! ## What a byte does to the flags -/

theorem Key.not_released (k : Key) : ¬ (k.code ≥ 0x81 ∧ k.code ≤ 0xD8) := by
  rintro ⟨hge, -⟩
  exact absurd (UInt8.le_trans hge k.code_le) (by decide)

/-- The byte of a release, as a number. -/
theorem Key.toNat_release (k : Key) : (k.code ||| 0x80).toNat = k.code.toNat + 0x80 := by
  have hcodes : ∀ n < 0x59, n ||| 0x80 = n + 0x80 := by decide
  have hle : k.code.toNat ≤ 0x58 := UInt8.le_iff_toNat_le.mp k.code_le
  rw [UInt8.toNat_or]
  exact hcodes _ (Nat.lt_succ_of_le hle)

theorem Key.released (k : Key) : k.code ||| 0x80 ≥ 0x81 ∧ k.code ||| 0x80 ≤ 0xD8 := by
  have hpos : 0x01 ≤ k.code.toNat := UInt8.le_iff_toNat_le.mp k.code_pos
  have hle : k.code.toNat ≤ 0x58 := UInt8.le_iff_toNat_le.mp k.code_le
  constructor
  · rw [ge_iff_le, UInt8.le_iff_toNat_le, k.toNat_release]
    exact Nat.add_le_add_right hpos 0x80
  · rw [UInt8.le_iff_toNat_le, k.toNat_release]
    exact Nat.add_le_add_right hle 0x80

theorem Key.release_eq_iff (k : Key) (b c : UInt8) (h : b.toNat = c.toNat + 0x80) :
    k.code ||| 0x80 = b ↔ k.code = c := by
  rw [← UInt8.toNat_inj, k.toNat_release, h, Nat.add_right_cancel_iff, UInt8.toNat_inj]

namespace Keyboard

/-- The prefix of an extended key is taken for Ctrl. -/
theorem flag_extended (k : Keyboard) (m : Modifier) :
    (kbInterruptDo 0xE0 k).1.flag m = (decide (m = .ctrl) || k.flag m) := by
  cases m <;> rfl

/-- A press. -/
theorem flag_press (k : Keyboard) (m : Modifier) (key : Key) :
    (kbInterruptDo key.code k).1.flag m = (decide (key.code ∈ m.codes) || k.flag m) := by
  have hrel := key.not_released
  have hext : key.code ≠ 0xE0 := fun h ↦ absurd (h ▸ key.code_le) (by decide)
  generalize key.code = input at hrel hext
  by_cases hshift : input = 42 ∨ input = 54
  · rcases hshift with rfl | rfl <;> cases m <;> rfl
  by_cases halt : input = 0x38
  · subst halt
    cases m <;> rfl
  by_cases hctrl : input = 0x1D
  · subst hctrl
    cases m <;> rfl
  -- no key of a modifier: at most Enter or Caps Lock is noted
  have hcode : input ∉ m.codes := by
    cases m <;> simp_all [Modifier.codes, Modifier.keys]
  have hother : ¬ (input = 0x38 ∨ input = 0x36) := by
    rintro (h | h)
    · exact halt h
    · exact hshift (Or.inr h)
  rw [kbInterruptDo, if_neg hrel, if_neg hshift, if_neg hother, if_neg (not_or.mpr ⟨hctrl, hext⟩),
    decide_eq_false hcode, Bool.false_or]
  split
  · cases m <;> rfl
  split
  · cases m <;> rfl
  split <;> rfl

/-- A release. -/
theorem flag_release (k : Keyboard) (m : Modifier) (key : Key) :
    (kbInterruptDo (key.code ||| 0x80) k).1.flag m =
      (!decide (key.code ∈ m.codes) && k.flag m) := by
  rw [kbInterruptDo, if_pos key.released]
  simp only [key.release_eq_iff 0x9D 0x1D rfl, key.release_eq_iff 0xAA 0x2A rfl,
    key.release_eq_iff 0xB6 0x36 rfl, key.release_eq_iff 0xB8 0x38 rfl]
  generalize key.code = input
  by_cases hctrl : input = 0x1D
  · subst hctrl
    cases m <;> rfl
  by_cases hshift : input = 0x2A ∨ input = 0x36
  · rcases hshift with rfl | rfl <;> cases m <;> rfl
  by_cases halt : input = 0x38
  · subst halt
    cases m <;> rfl
  have hcode : input ∉ m.codes := by
    cases m <;> simp_all [Modifier.codes, Modifier.keys]
  rw [if_neg hctrl, if_neg hshift, if_neg halt, decide_eq_false hcode, Bool.not_false,
    Bool.true_and]

/-- **One event.**  The flag of a modifier follows its codes; and the prefix of an extended key
sets that of Ctrl. -/
theorem flag_feed (k : Keyboard) (m : Modifier) (e : KeyEvent) :
    (k.feed e.bytes).flag m = if e.key.code ∈ m.codes then e.pressed
      else k.flag m || (decide (m = .ctrl) && e.key.extended) := by
  obtain ⟨key, pressed⟩ := e
  have hbyte (k : Keyboard) :
      (kbInterruptDo (if pressed then key.code else key.code ||| 0x80) k).1.flag m =
        if key.code ∈ m.codes then pressed else k.flag m := by
    cases pressed with
    | true =>
        rw [if_pos rfl, flag_press]
        split <;> simp_all
    | false =>
        rw [if_neg Bool.false_ne_true, flag_release]
        split <;> simp_all
  cases hext : key.extended with
  | true =>
      simp only [feed, KeyEvent.bytes, hext, if_true, List.cons_append, List.nil_append,
        List.foldl_cons, List.foldl_nil, hbyte, flag_extended, Bool.and_true]
      rw [Bool.or_comm]
  | false =>
      simp only [feed, KeyEvent.bytes, hext, Bool.false_eq_true, if_false, List.nil_append,
        List.foldl_cons, List.foldl_nil, hbyte, Bool.and_false, Bool.or_false]

end Keyboard

/-! ## The flags and the keys -/

/-- The flags of the handler, and the keys that are held down. -/
structure KeyState where
  keyboard : Keyboard
  held : Key → Bool

namespace KeyState

/-- Nothing was pressed. -/
def init : KeyState := ⟨Keyboard.init, fun _ ↦ false⟩

/-- One event: its bytes go to the handler one by one. -/
def step (s : KeyState) (e : KeyEvent) : Option KeyState :=
  some ⟨s.keyboard.feed e.bytes, Function.update s.held e.key e.pressed⟩

/-- Each flag is set if and only if a key of its modifier is held down. -/
def Follows (s : KeyState) : Prop := ∀ m : Modifier, s.keyboard.flag m = true ↔ m.Held s.held

/-- An event with the code of a modifier is a press of one of its keys, or of another while one of
them is held, or a release while no other is held; and an extended key without the code of Ctrl
is pressed and released while Ctrl is held. -/
structure Tracked (s : KeyState) (e : KeyEvent) : Prop where
  press : ∀ m : Modifier, e.key.code ∈ m.codes → e.pressed = true → e.key ∈ m.keys ∨ m.Held s.held
  release : ∀ m : Modifier, e.key.code ∈ m.codes → e.pressed = false →
    ∀ k ∈ m.keys, k ≠ e.key → s.held k = false
  extended : e.key.extended = true → e.key.code ∉ Modifier.ctrl.codes → Modifier.ctrl.Held s.held

variable {s : KeyState} {e : KeyEvent}

/-- The keys of a modifier after an event. -/
theorem held_update_iff (m : Modifier) :
    m.Held (Function.update s.held e.key e.pressed) ↔
      (e.key ∈ m.keys ∧ e.pressed = true) ∨ ∃ k ∈ m.keys, k ≠ e.key ∧ s.held k = true := by
  constructor
  · rintro ⟨k, hk, hheld⟩
    rcases eq_or_ne k e.key with rfl | hne
    · rw [Function.update_self] at hheld
      exact Or.inl ⟨hk, hheld⟩
    · rw [Function.update_of_ne hne] at hheld
      exact Or.inr ⟨k, hk, hne, hheld⟩
  · rintro (⟨hk, hpressed⟩ | ⟨k, hk, hne, hheld⟩)
    · exact ⟨e.key, hk, by rw [Function.update_self, hpressed]⟩
    · exact ⟨k, hk, by rw [Function.update_of_ne hne, hheld]⟩

/-- The flag of one modifier after a press with one of its codes. -/
theorem press_iff {m : Modifier} (hcode : e.key.code ∈ m.codes) (hpressed : e.pressed = true) :
    ((s.keyboard.feed e.bytes).flag m = true ↔ m.Held (Function.update s.held e.key e.pressed)) ↔
      (e.key ∈ m.keys ∨ m.Held s.held) := by
  rw [Keyboard.flag_feed, if_pos hcode, held_update_iff, hpressed, eq_self_iff_true, true_iff,
    and_true]
  refine or_congr_right' fun hkey ↦ ⟨?_, ?_⟩
  · rintro ⟨k, hk, -, hheld⟩
    exact ⟨k, hk, hheld⟩
  · rintro ⟨k, hk, hheld⟩
    exact ⟨k, hk, fun heq ↦ hkey (heq ▸ hk), hheld⟩

/-- After a release with one of its codes. -/
theorem release_iff {m : Modifier} (hcode : e.key.code ∈ m.codes) (hpressed : e.pressed = false) :
    ((s.keyboard.feed e.bytes).flag m = true ↔ m.Held (Function.update s.held e.key e.pressed)) ↔
      ∀ k ∈ m.keys, k ≠ e.key → s.held k = false := by
  rw [Keyboard.flag_feed, if_pos hcode, held_update_iff, hpressed]
  simp only [Bool.false_eq_true, and_false, false_or, false_iff, not_exists, not_and,
    Bool.not_eq_true]

/-- After any other event: only the prefix matters. -/
theorem other_iff (h : s.Follows) {m : Modifier} (hcode : e.key.code ∉ m.codes) :
    ((s.keyboard.feed e.bytes).flag m = true ↔ m.Held (Function.update s.held e.key e.pressed)) ↔
      (m = .ctrl → e.key.extended = true → m.Held s.held) := by
  have hkey : e.key ∉ m.keys := fun hk ↦ hcode (List.mem_map_of_mem hk)
  have hheld : m.Held (Function.update s.held e.key e.pressed) ↔ m.Held s.held := by
    rw [held_update_iff]
    constructor
    · rintro (⟨hk, -⟩ | ⟨k, hk, -, hk'⟩)
      · exact absurd hk hkey
      · exact ⟨k, hk, hk'⟩
    · rintro ⟨k, hk, hk'⟩
      exact Or.inr ⟨k, hk, fun heq ↦ hkey (heq ▸ hk), hk'⟩
  rw [Keyboard.flag_feed, if_neg hcode, hheld, Bool.or_eq_true, h m, Bool.and_eq_true,
    decide_eq_true_eq]
  constructor
  · intro hiff hm hext
    exact hiff.mp (Or.inr ⟨hm, hext⟩)
  · intro himp
    exact ⟨fun hor ↦ hor.elim id fun hx ↦ himp hx.1 hx.2, Or.inl⟩

/-- **One event.**  The flags follow the keys through it exactly if it is tracked. -/
theorem Follows.step_iff (h : s.Follows) :
    (∀ s', s.step e = some s' → s'.Follows) ↔ s.Tracked e := by
  have hstep : (∀ s', s.step e = some s' → s'.Follows) ↔ ∀ m : Modifier,
      ((s.keyboard.feed e.bytes).flag m = true ↔
        m.Held (Function.update s.held e.key e.pressed)) :=
    ⟨fun h' ↦ h' _ rfl, fun h' s' hs' ↦ Option.some.inj hs' ▸ h'⟩
  rw [hstep]
  constructor
  · intro hm
    refine ⟨fun m hcode hp ↦ (press_iff hcode hp).mp (hm m),
      fun m hcode hp ↦ (release_iff hcode hp).mp (hm m),
      fun hext hcode ↦ (other_iff h hcode).mp (hm .ctrl) rfl hext⟩
  · rintro ⟨hpress, hrelease, hext⟩ m
    by_cases hcode : e.key.code ∈ m.codes
    · cases hp : e.pressed with
      | true => exact hp ▸ (press_iff hcode hp).mpr (hpress m hcode hp)
      | false => exact hp ▸ (release_iff hcode hp).mpr (hrelease m hcode hp)
    · exact (other_iff h hcode).mpr fun hm hx ↦ hm ▸ hext hx (hm ▸ hcode)

theorem follows_init : init.Follows := by
  intro m
  cases m <;> exact ⟨nofun, fun ⟨_, _, h⟩ ↦ absurd h Bool.false_ne_true⟩

/-- **When the flags follow the keys.**  From the initial state, the flags say after every event
which modifiers are held down, exactly if every event is tracked. -/
theorem flags_follow_iff (es : List KeyEvent) :
    Along step Follows init es ↔ AllSteps step Tracked init es := by
  rw [along_iff, and_iff_right follows_init]
  refine AllSteps.congr Follows (fun s e s' _ hpost hs' ↦ hpost s' hs') ?_ follows_init
  intro s e h
  exact h.step_iff

/-- The key Up, which is extended, is pressed and released: the flag of Ctrl stays set. -/
theorem up_sets_ctrl :
    ¬ Along step Follows init [⟨⟨true, 0x48, by decide, by decide⟩, true⟩,
      ⟨⟨true, 0x48, by decide, by decide⟩, false⟩] := by
  intro h
  obtain ⟨s', hexec, hflag, hheld⟩ : ∃ s', exec step init
      [⟨⟨true, 0x48, by decide, by decide⟩, true⟩,
        ⟨⟨true, 0x48, by decide, by decide⟩, false⟩] = some s' ∧
      s'.keyboard.flag .ctrl = true ∧ ¬ Modifier.ctrl.Held s'.held := ⟨_, rfl, rfl, by decide⟩
  exact hheld ((h _ s' (List.prefix_refl _) hexec .ctrl).mp hflag)

end KeyState

end Illinix
