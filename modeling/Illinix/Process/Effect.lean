import Illinix.Process.Step

/-!
# Everything a step can do

The invariants of the kernel are all proved the same way: by looking at what a step can
do.  `Effect` says this once.  Its cases are the ways out of the five entries, with the
guards that lead there and the new state as a combination of the record updates of
`Kernel`; `HaltEffect` does the same for `halt`, which also ends a process after a page
fault in the kernel.

`step_effect` is the inversion of `step`.  It also says that a step goes through, for a
process whose number and terminal are in range.
-/

namespace Illinix

/-- The keys ask for one of the three terminals, and a command has a first word that fits
in `program`. -/
def Call.InRange : Call → Prop
  | .execute command => (firstWord command).length < fileNameSize
  | .switchToTty tty => tty < maxTty
  | _ => True

instance : DecidablePred Call.InRange
  | .execute _ => inferInstanceAs (Decidable (_ < _))
  | .switchToTty _ => inferInstanceAs (Decidable (_ < _))
  | .halt _ _ => inferInstanceAs (Decidable True)
  | .tick _ => inferInstanceAs (Decidable True)
  | .vidmap _ => inferInstanceAs (Decidable True)

/-- The entry comes from the running process: `get_pcb` finds the PCB of the process that
the last transfer of control chose. -/
structure Event.Valid (k : Kernel) (e : Event) : Prop where
  onStack : getPcb e.frame.esp = k.current
  inRange : e.call.InRange

namespace Event

variable {k : Kernel} {e : Event}

instance : Decidable (e.Valid k) :=
  decidable_of_iff (getPcb e.frame.esp = k.current ∧ e.call.InRange)
    ⟨fun ⟨h₁, h₂⟩ ↦ ⟨h₁, h₂⟩, fun h ↦ ⟨h.onStack, h.inRange⟩⟩

theorem Valid.tty_lt (h : e.Valid k) {tty : Nat} (hc : e.call = .switchToTty tty) :
    tty < maxTty := by
  have hin := h.inRange
  rwa [hc] at hin

theorem Valid.word_lt (h : e.Valid k) {command : Bytes} (hc : e.call = .execute command) :
    (firstWord command).length < fileNameSize := by
  have hin := h.inRange
  rwa [hc] at hin

end Event

namespace Kernel

/-- A process ends: its descriptors are closed. -/
abbrev closed (k : Kernel) (ebx : Int) : Kernel := k.closeFiles k.current ebx

/-- A root ends: its descriptors are closed, its number is free, a shell is wanted. -/
abbrev retired (k : Kernel) (ebx : Int) : Kernel := (k.closed ebx).retire k.current

/-- The terminal switch before it looks for a process. -/
abbrev atTty (k : Kernel) (tty : Nat) : Kernel := { k with activeTty := tty }

/-- The terminal switch before it runs a shell. -/
abbrev wantsShell (k : Kernel) (tty : Nat) : Kernel :=
  { k.atTty tty with nextOneIsRootShell := true }

/-- `vidmap` before it stores the address. -/
abbrev vidmapped (M : Machine) (k : Kernel) : Kernel :=
  { k with paging := setVidmap M.pt k.paging }

/-- `execute` when the load has faulted. -/
abbrev faulted (M : Machine) (k : Kernel) (q : Nat) (mem : Nat → UInt8) : Kernel :=
  { k.claim M q with mem := mem }

end Kernel

/-- What ending the running process can do. -/
inductive HaltEffect (M : Machine) (k : Kernel) (f : Frame) (l : Locals) (ebx : Int) :
    Outcome → Kernel → Prop
  | /-- A root starts over. -/
    restarts {q eip : Nat} {args bytes : List UInt8} :
      (k.pcbs k.current).parent = k.current → (k.retired ebx).freeSlot = some q →
      HaltEffect M k f l ebx (.enters q eip) ((k.retired ebx).launch M q f l args bytes)
  | /-- Any other process gives way to its parent. -/
    returns : (k.pcbs k.current).parent ≠ k.current →
      HaltEffect M k f l ebx ((k.closed ebx).returnToParent M k.current).1
        ((k.closed ebx).returnToParent M k.current).2

/-- What a step can do. -/
inductive Effect (M : Machine) (k : Kernel) (e : Event) : Outcome → Kernel → Prop
  | /-- `execute` returns `-1`. -/
    executeFails {command : Bytes} : e.call = .execute command →
      execute M k e.frame e.locals command = some .error → Effect M k e (.stays (some (-1))) k
  | /-- `vidmap` rejects the pointer. -/
    vidmapFails {p : Nat} : e.call = .vidmap p → ¬ InUserRange p →
      Effect M k e (.stays (some (-1))) k
  | /-- `vidmap` maps the video page. -/
    vidmaps {p : Nat} {mem : Nat → UInt8} : e.call = .vidmap p → InUserRange p →
      Effect M k e (.stays (some 0)) { k.vidmapped M with mem := mem }
  | /-- `vidmap` maps the video page, and the store faults. -/
    vidmapFaults {p : Nat} {o : Outcome} {k' : Kernel} : e.call = .vidmap p → InUserRange p →
      HaltEffect M (k.vidmapped M) e.frame e.locals e.locals.ebx o k' → Effect M k e o k'
  | /-- A tick stays with the process. -/
    tickStays {beyond : Nat} : e.call = .tick beyond →
      Effect M k e (.stays none) (k.saveFrame k.current e.frame)
  | /-- A tick goes to another process. -/
    tickSwitches {beyond next : Nat} : e.call = .tick beyond →
      next = k.ttyTopPid (k.pcbs k.current).tty → next ≠ (k.pcbs k.current).processNum →
      Effect M k e
        (.resumes ((k.saveFrame k.current e.frame).pcbs (pcbAddr next)).frame none)
        ((k.saveFrame k.current e.frame).resume M next (pcbAddr next))
  | /-- `execute` starts a program. -/
    executes {command : Bytes} {q eip : Nat} {args bytes : List UInt8} :
      e.call = .execute command → k.freeSlot = some q → Loads M e.locals command bytes →
      Effect M k e (.enters q eip) (k.launch M q e.frame e.locals args bytes)
  | /-- `execute` faults while it loads the program. -/
    executeFaults {command : Bytes} {q : Nat} {o : Outcome} {k' : Kernel} :
      e.call = .execute command → k.freeSlot = some q →
      execute M k e.frame e.locals command = some (.fault (k.faulted M q e.locals.mem)) →
      HaltEffect M (k.faulted M q e.locals.mem) e.frame e.inner e.locals.ebx o k' →
      Effect M k e o k'
  | /-- A terminal is opened. -/
    opens {tty q eip : Nat} {args bytes : List UInt8} :
      e.call = .switchToTty tty → k.ttyTopPid tty = ttyUnopened → k.freeSlot = some q →
      Effect M k e (.enters q eip) ((k.wantsShell tty).launch M q e.frame e.locals args bytes)
  | /-- A terminal cannot be opened. -/
    openFails {tty : Nat} : e.call = .switchToTty tty → k.ttyTopPid tty = ttyUnopened →
      k.freeSlot = none → Effect M k e (.stays none) (k.wantsShell tty)
  | /-- An opened terminal comes to the front. -/
    focuses {tty : Nat} : e.call = .switchToTty tty → k.ttyTopPid tty ≠ ttyUnopened →
      Effect M k e (.resumes (k.pcbs (pcbAddr (k.ttyTopPid tty))).frame none)
        ((k.atTty tty).resume M (k.ttyTopPid tty) (pcbAddr (k.ttyTopPid tty)))
  | /-- The running process ends. -/
    halts {ending : Ending} {ebx : Int} {o : Outcome} {k' : Kernel} :
      e.call = .halt ending ebx → HaltEffect M k e.frame e.locals ebx o k' → Effect M k e o k'

section

variable {M : Machine} {k : Kernel}

/-- A shell can be run whenever a process number is free. -/
theorem execute_shell (hM : M.HasShell) (k : Kernel) (f : Frame) (l : Locals) :
    (k.freeSlot = none ∧ execute M k f l M.shellCommand = some .error) ∨
      ∃ q eip args bytes, k.freeSlot = some q ∧
        execute M k f l M.shellCommand = some (.entered q eip (k.launch M q f l args bytes)) := by
  obtain ⟨dentry, h⟩ := hM
  obtain ⟨hname, hlen⟩ := M.firstWord_shellCommand
  exact execute_of_hasExecutable (by rw [hname]; exact h) hlen k f l

theorem halt_effect (hM : M.HasShell) {f : Frame} (l : Locals) (ebx : Int)
    (hf : getPcb f.esp = k.current) (hnum : (k.pcbs k.current).processNum < maxNumProcesses) :
    ∃ o k', halt M k f l ebx = some (o, k') ∧ HaltEffect M k f l ebx o k' := by
  simp only [halt, hf]
  by_cases hroot : (k.pcbs k.current).parent = k.current
  · rw [if_pos hroot]
    have hclosed : ((k.closed ebx).pcbs k.current).processNum =
        (k.pcbs k.current).processNum := by
      simp only [Kernel.closed, Kernel.closeFiles, Function.update_self]
    have hzero : (k.retired ebx).processes (k.pcbs k.current).processNum = 0 := by
      simp only [Kernel.retired, Kernel.retire, hclosed, Function.update_self]
    obtain ⟨q, hq⟩ := Kernel.freeSlot_isSome hnum hzero
    rcases execute_shell hM (k.retired ebx) f l with ⟨hnone, _⟩ | ⟨q', eip, args, bytes, hq', hex⟩
    · rw [hq] at hnone
      cases hnone
    · rw [hex]
      exact ⟨_, _, rfl, .restarts hroot hq'⟩
  · rw [if_neg hroot]
    exact ⟨_, _, rfl, .returns hroot⟩

theorem nextTtyLoop_succ {top : Nat → Nat} {fuel i : Nat}
    (h : ∃ r, Kernel.nextTtyLoop top fuel ((i + 1) % maxTty) = some r) :
    ∃ r, Kernel.nextTtyLoop top (fuel + 1) i = some r := by
  rw [Kernel.nextTtyLoop]
  split
  · exact h
  · exact ⟨i, rfl⟩

/-- The search loop ends when the terminal it started from is open: it comes back to it
after two more places. -/
theorem getNextProcess_eq {beyond tty : Nat} (ht : tty < maxTty)
    (hopen : k.ttyTopPid tty ≠ ttyUnopened) :
    k.getNextProcess beyond tty = some (k.ttyTopPid tty) := by
  rw [Kernel.getNextProcess]
  generalize htop : (fun i ↦ if i < maxTty then k.ttyTopPid i else beyond) = top
  have hfound : ∀ fuel, ∃ r, Kernel.nextTtyLoop top (fuel + 1) tty = some r := by
    intro fuel
    have hne : top tty ≠ ttyUnopened := by
      rw [← htop]
      simp only [if_pos ht]
      exact hopen
    exact ⟨tty, by rw [Kernel.nextTtyLoop, if_neg hne]⟩
  have hback : ((tty + 1 + 1) % maxTty + 1) % maxTty = tty := by
    simp only [maxTty] at ht ⊢
    omega
  obtain ⟨r, hr⟩ : ∃ r, Kernel.nextTtyLoop top (maxTty + 1) (tty + 1) = some r := by
    refine nextTtyLoop_succ (nextTtyLoop_succ ?_)
    rw [hback]
    exact hfound 1
  rw [hr]
  rfl

theorem switchProcess_effect {e : Event} {beyond : Nat} (hcall : e.call = .tick beyond)
    (hf : getPcb e.frame.esp = k.current) (ht : (k.pcbs k.current).tty < maxTty)
    (hopen : k.ttyTopPid (k.pcbs k.current).tty ≠ ttyUnopened) :
    ∃ o k', k.switchProcess M e.frame beyond = some (o, k') ∧ Effect M k e o k' := by
  have hnext : (k.saveFrame k.current e.frame).getNextProcess beyond (k.pcbs k.current).tty =
      some (k.ttyTopPid (k.pcbs k.current).tty) := getNextProcess_eq ht hopen
  simp only [Kernel.switchProcess, hf, hnext]
  split
  · exact ⟨_, _, rfl, .tickStays hcall⟩
  · rename_i hne
    rw [not_or] at hne
    exact ⟨_, _, rfl, .tickSwitches hcall rfl hne.2⟩

theorem switchToTty_effect (hM : M.HasShell) {e : Event} {tty : Nat}
    (hcall : e.call = .switchToTty tty) :
    ∃ o k', switchToTty M k e.frame e.locals e.inner tty = some (o, k') ∧ Effect M k e o k' := by
  simp only [switchToTty]
  by_cases hun : k.ttyTopPid tty = ttyUnopened
  · rw [if_pos hun]
    rcases execute_shell hM (k.wantsShell tty) e.frame e.locals with
      ⟨hnone, hex⟩ | ⟨q, eip, args, bytes, hq, hex⟩
    · rw [hex]
      exact ⟨_, _, rfl, .openFails hcall hun hnone⟩
    · rw [hex]
      exact ⟨_, _, rfl, .opens hcall hun hq⟩
  · rw [if_neg hun]
    exact ⟨_, _, rfl, .focuses hcall hun⟩

/-- What a step needs of the running process to go through. -/
structure Kernel.Running (k : Kernel) : Prop where
  num_lt : (k.pcbs k.current).processNum < maxNumProcesses
  tty_lt : (k.pcbs k.current).tty < maxTty
  top_lt : k.ttyTopPid (k.pcbs k.current).tty < maxNumProcesses

/-- **Everything a step can do.** -/
theorem step_effect (hM : M.HasShell) {e : Event} (he : e.Valid k) (hr : k.Running) :
    ∃ o k', step M k e = some (o, k') ∧ Effect M k e o k' := by
  cases hcall : e.call with
  | execute command =>
      simp only [step, hcall]
      rcases execute_cases (M := M) (k := k) (f := e.frame) (l := e.locals)
        (he.word_lt hcall) with
        hex | ⟨q, eip, args, bytes, hq, hload, hex⟩ | ⟨q, hq, hex⟩
      · rw [hex]
        exact ⟨_, _, rfl, .executeFails hcall hex⟩
      · rw [hex]
        exact ⟨_, _, rfl, .executes hcall hq hload⟩
      · rw [hex]
        obtain ⟨o, k', hhalt, heff⟩ := halt_effect (k := k.faulted M q e.locals.mem) hM e.inner
          e.locals.ebx he.onStack hr.num_lt
        exact ⟨o, k', hhalt, .executeFaults hcall hq hex heff⟩
  | halt ending ebx =>
      obtain ⟨o, k', hhalt, heff⟩ := halt_effect hM e.locals ebx he.onStack hr.num_lt
      refine ⟨o, k', ?_, .halts hcall heff⟩
      simp only [step, hcall, hhalt]
  | tick beyond =>
      have htop := hr.top_lt
      obtain ⟨o, k', htick, heff⟩ := switchProcess_effect (M := M) hcall he.onStack hr.tty_lt
        (by simp only [maxNumProcesses, ttyUnopened] at htop ⊢; omega)
      refine ⟨o, k', ?_, heff⟩
      simp only [step, hcall, htick]
  | switchToTty tty =>
      obtain ⟨o, k', hswitch, heff⟩ := switchToTty_effect (k := k) hM hcall
      refine ⟨o, k', ?_, heff⟩
      simp only [step, hcall, hswitch]
  | vidmap p =>
      simp only [step, hcall, vidmap]
      by_cases hp : InUserRange p
      · rw [if_neg (not_not_intro hp)]
        split
        · exact ⟨_, _, rfl, .vidmaps hcall hp⟩
        · obtain ⟨o, k', hhalt, heff⟩ := halt_effect (k := k.vidmapped M) hM e.locals
            e.locals.ebx he.onStack hr.num_lt
          exact ⟨o, k', hhalt, .vidmapFaults hcall hp heff⟩
      · rw [if_pos hp]
        exact ⟨_, _, rfl, .vidmapFails hcall hp⟩

/-- The first shell starts, as process 0. -/
theorem boot_effect (hM : M.HasShell) (b : BootState) :
    ∃ args bytes, boot M b = some ((bootKernel M b).launch M 0 b.frame b.locals args bytes) := by
  have hfree : (bootKernel M b).freeSlot = some 0 := rfl
  rcases execute_shell hM (bootKernel M b) b.frame b.locals with
    ⟨hnone, _⟩ | ⟨q, eip, args, bytes, hq, hex⟩
  · rw [hfree] at hnone
    cases hnone
  · rw [hfree] at hq
    cases hq
    exact ⟨args, bytes, by rw [boot, hex]⟩

end

end Illinix
