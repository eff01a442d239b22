import Illinix.Process.Designation

/-!
# The context of a process that loses the processor

Four routines take the processor from a process, and they share two fields of its PCB.
`execute` stores `ESP` and `EBP` in the parent of the new process, `switch_process` in the
process it interrupts; `switch_to_tty` stores nothing, neither before it loads the top of
an opened terminal nor before it runs the shell of an unopened one.

`Traced` adds to the kernel the record of where each process was when it lost the
processor, and `Resumes` says that a process is resumed there.  A run resumes every
process where it was if each step that takes the processor away without storing `ESP` and
`EBP` finds them in the PCB already: `resumes_where_left`.
-/

namespace Illinix

/-- The kernel, with the stack and frame pointers that the live processes had when they
last lost the processor. -/
structure Traced where
  kernel : Kernel
  left : Nat → Option Frame

namespace Traced

/-- The record when the running process loses the processor; a process that ended has no
place to go back to. -/
def leave (s : Traced) (e : Event) (k' : Kernel) : Nat → Option Frame :=
  Function.update s.left s.kernel.current
    (if k'.processes (s.kernel.pcbs s.kernel.current).processNum = 1 then some e.frame else none)

/-- The record after a step: a process that runs has none. -/
def after (s : Traced) (e : Event) : Outcome × Kernel → Traced
  | (.stays _, k') => ⟨k', s.left⟩
  | (.enters pid _, k') => ⟨k', Function.update (s.leave e k') (pcbAddr pid) none⟩
  | (.resumes _ _, k') => ⟨k', Function.update (s.leave e k') k'.current none⟩

def next (M : Machine) (s : Traced) (e : Event) : Option Traced :=
  (step M s.kernel e).map (s.after e)

/-- If the step resumes a process, it loads the stack and frame pointers which that
process had when it lost the processor. -/
def Resumes (M : Machine) (s : Traced) (e : Event) : Prop :=
  ∀ f ret k', step M s.kernel e = some (.resumes f ret, k') →
    ∀ g, s.leave e k' k'.current = some g → f = g

/-- The PCBs of the processes that are not running hold what the record says. -/
structure Kept (s : Traced) : Prop where
  running : s.left s.kernel.current = none
  frame : ∀ a g, s.left a = some g → (s.kernel.pcbs a).frame = g

/-- A step with this outcome resumes a process where it was, and its record is true. -/
structure Keeps (s : Traced) (e : Event) (o : Outcome) (k' : Kernel) : Prop where
  resumes : ∀ f ret, o = .resumes f ret → ∀ g, s.leave e k' k'.current = some g → f = g
  kept : (s.after e (o, k')).Kept

namespace Kept

variable {s : Traced} {e : Event} {k' : Kernel}

/-- The running process stays. -/
theorem stays (h : s.Kept) {ret : Option Int}
    (hframe : ∀ a, a ≠ s.kernel.current → (k'.pcbs a).frame = (s.kernel.pcbs a).frame)
    (hcur : k'.current = s.kernel.current) : s.Keeps e (.stays ret) k' := by
  refine ⟨fun _ _ ho ↦ (by cases ho), ?_, fun a g hg ↦ ?_⟩
  · rw [after, hcur]
    exact h.running
  · have ha : a ≠ s.kernel.current := by
      rintro rfl
      rw [after, h.running] at hg
      cases hg
    exact (hframe a ha).trans (h.frame a g hg)

/-- What the record says of a process after the running one has left is in its PCB, if the
PCBs of the others are as they were and the one of the running process has its frame. -/
theorem frame_of_leave (h : s.Kept) {a : Nat} {g : Frame} (hg : s.leave e k' a = some g)
    (hframe : a ≠ s.kernel.current → (k'.pcbs a).frame = (s.kernel.pcbs a).frame)
    (hself : a = s.kernel.current →
      k'.processes (s.kernel.pcbs s.kernel.current).processNum = 1 →
      (k'.pcbs a).frame = e.frame) : (k'.pcbs a).frame = g := by
  by_cases ha : a = s.kernel.current
  · rw [leave, ha, Function.update_self] at hg
    split at hg
    · rename_i hlive
      cases hg
      exact hself ha hlive
    · cases hg
  · rw [leave, Function.update_of_ne ha] at hg
    rw [hframe ha, h.frame a g hg]

/-- A new process takes over. -/
theorem enters (h : s.Kept) {pid eip : Nat} (hcur : k'.current = pcbAddr pid)
    (hframe : ∀ a, a ≠ pcbAddr pid → a ≠ s.kernel.current →
      (k'.pcbs a).frame = (s.kernel.pcbs a).frame)
    (hself : s.kernel.current ≠ pcbAddr pid →
      k'.processes (s.kernel.pcbs s.kernel.current).processNum = 1 →
      (k'.pcbs s.kernel.current).frame = e.frame) :
    s.Keeps e (.enters pid eip) k' := by
  refine ⟨fun _ _ ho ↦ (by cases ho), ?_, fun a g hg ↦ ?_⟩
  · simp only [after, hcur, Function.update_self]
  · by_cases ha : a = pcbAddr pid
    · subst ha
      simp only [after, Function.update_self] at hg
      cases hg
    · simp only [after, Function.update_of_ne ha] at hg
      refine h.frame_of_leave hg (hframe a ha) fun hac hlive ↦ ?_
      subst hac
      exact hself ha hlive

/-- An old process takes over. -/
theorem resumes (h : s.Kept) {f : Frame} {ret : Option Int}
    (hf : (k'.pcbs k'.current).frame = f)
    (hframe : ∀ a, a ≠ s.kernel.current → (k'.pcbs a).frame = (s.kernel.pcbs a).frame)
    (hself : k'.processes (s.kernel.pcbs s.kernel.current).processNum = 1 →
      (k'.pcbs s.kernel.current).frame = e.frame) :
    s.Keeps e (.resumes f ret) k' := by
  have hleave : ∀ a g, s.leave e k' a = some g → (k'.pcbs a).frame = g := by
    intro a g hg
    refine h.frame_of_leave hg (hframe a) fun hac hlive ↦ ?_
    subst hac
    exact hself hlive
  refine ⟨fun f' ret' ho g hg ↦ ?_, ?_, fun a g hg ↦ ?_⟩
  · cases ho
    rw [← hf, hleave _ g hg]
  · simp only [after, Function.update_self]
  · by_cases ha : a = k'.current
    · subst ha
      simp only [after, Function.update_self] at hg
      cases hg
    · simp only [after, Function.update_of_ne ha] at hg
      exact hleave a g hg

end Kept

end Traced

/-- Where the step takes the processor away without storing `ESP` and `EBP`, the PCB of the
running process holds them already.  These are the terminal switches that leave, and the
programs that become their own parent. -/
def Event.KeepsContext (M : Machine) (k : Kernel) (e : Event) : Prop :=
  match e.call with
  | .switchToTty tty => k.ttyTopPid tty ≠ ttyUnopened ∨ k.freeSlot ≠ none →
      (k.pcbs k.current).frame = e.frame
  | .execute command => ∀ q bytes, k.freeSlot = some q → k.IsRoot q →
      Loads M e.locals command bytes → (k.pcbs k.current).frame = e.frame
  | _ => True

namespace Traced.Kept

variable {M : Machine} {s : Traced} {e : Event} {k' : Kernel} {vid : Bool}

/-- A root is launched: only its own PCB changes. -/
theorem launch_root (h : s.Kept) (k₁ : Kernel) {q eip : Nat} (hroot : k₁.IsRoot q)
    (hpcbs : ∀ a, (k₁.pcbs a).frame = (s.kernel.pcbs a).frame)
    (hself : s.kernel.current ≠ pcbAddr q →
      Function.update k₁.processes q 1 (s.kernel.pcbs s.kernel.current).processNum = 1 →
      (s.kernel.pcbs s.kernel.current).frame = e.frame) (f : Frame) (l : Locals)
    (args bytes : List UInt8) :
    s.Keeps e (.enters q eip) (k₁.launch M q f l args bytes) := by
  have hframe : ∀ a, a ≠ pcbAddr q →
      ((k₁.launch M q f l args bytes).pcbs a).frame = (s.kernel.pcbs a).frame := by
    intro a ha
    rw [Kernel.launch_frame_of_ne _ _ _ _ _ _ _ ha
      (by rwa [Kernel.newParent_of_isRoot hroot]), hpcbs]
  refine h.enters (Kernel.launch_current ..) (fun a ha _ ↦ hframe a ha) fun hne hlive ↦ ?_
  rw [hframe _ hne]
  exact hself hne hlive

/-- The running process ends; its record goes with it. -/
theorem halt (h : s.Kept) (hd : Designated M s.kernel vid) (k₁ : Kernel)
    (hpcbs : k₁.pcbs = s.kernel.pcbs) (hcur : k₁.current = s.kernel.current) {f : Frame}
    {l : Locals} {ebx : Int} {o : Outcome} (heff : HaltEffect M k₁ f l ebx o k') :
    s.Keeps e o k' := by
  obtain ⟨made, r, hreg, hr, hdes⟩ := hd
  have hframe : ∀ a, ((k₁.closed ebx).pcbs a).frame = (s.kernel.pcbs a).frame := by
    intro a
    rw [Kernel.closeFiles_frame, hpcbs]
  have hlinks : ∀ a, Pcb.SameLinks (s.kernel.pcbs a) ((k₁.closed ebx).pcbs a) := by
    intro a
    rw [← hpcbs]
    exact k₁.closeFiles_sameLinks _ ebx a
  have hnum : ((k₁.closed ebx).pcbs k₁.current).processNum = r := by
    rw [hcur, (hlinks _).processNum, hdes.num]
  cases heff with
  | @restarts q _ _ _ _ hq =>
      have hproc : (k₁.retired ebx).processes = Function.update k₁.processes r 0 :=
        Kernel.retire_processes hnum
      have hqlt := (Kernel.freeSlot_eq_some.mp hq).1
      refine h.launch_root (k₁.retired ebx) (Or.inr rfl) hframe ?_ f l _ _
      intro hne hlive
      rw [hdes.current] at hne
      rw [hdes.num, hproc, Function.update_of_ne (fun hrq ↦ hne (by rw [hrq])),
        Function.update_self] at hlive
      cases hlive
  | returns hroot =>
      obtain ⟨p, hp, hparent⟩ := hreg.parent r hr
      have hpar : ((k₁.closed ebx).pcbs k₁.current).parent = pcbAddr p := by
        rw [hcur, (hlinks _).parent, hdes.current, hparent]
      have hpr : r ≠ p := by
        rintro rfl
        rw [hpcbs, hcur, hdes.current, hparent] at hroot
        exact hroot rfl
      have hpnum : ((k₁.closed ebx).pcbs ((k₁.closed ebx).pcbs k₁.current).parent).processNum =
          p := by
        rw [hpar, (hlinks _).processNum, hreg.num p hp]
      have hproc : ((k₁.closed ebx).returnToParent M k₁.current).2.processes =
          Function.update (Function.update k₁.processes r 0) p 1 :=
        Kernel.returnToParent_processes M hnum hpnum
      refine h.resumes rfl (fun a _ ↦ hframe a) fun hlive ↦ ?_
      rw [hdes.num, hproc, Function.update_of_ne hpr, Function.update_self] at hlive
      cases hlive

/-- **A step that keeps the context** resumes a process where it was, and the record stays
true. -/
theorem effect (h : s.Kept) (hd : Designated M s.kernel vid) (he : e.Valid s.kernel)
    (hk : e.KeepsContext M s.kernel) {o : Outcome} (heff : Effect M s.kernel e o k') :
    s.Keeps e o k' := by
  have hsaved : ∀ a, a ≠ s.kernel.current →
      ((s.kernel.saveFrame s.kernel.current e.frame).pcbs a).frame = (s.kernel.pcbs a).frame :=
    fun a ha ↦ congrArg Pcb.frame (Function.update_of_ne ha ..)
  cases heff with
  | executeFails _ _ => exact h.stays (fun _ _ ↦ rfl) rfl
  | vidmapFails _ _ => exact h.stays (fun _ _ ↦ rfl) rfl
  | vidmaps _ _ => exact h.stays (fun _ _ ↦ rfl) rfl
  | openFails _ _ _ => exact h.stays (fun _ _ ↦ rfl) rfl
  | tickStays _ => exact h.stays hsaved rfl
  | vidmapFaults _ _ hh => exact h.halt hd (s.kernel.vidmapped M) rfl rfl hh
  | executeFaults _ _ _ hh => exact h.halt hd (s.kernel.faulted M _ e.locals.mem) rfl rfl hh
  | halts _ hh => exact h.halt hd s.kernel rfl rfl hh
  | tickSwitches _ _ _ =>
      refine h.resumes rfl hsaved fun _ ↦ ?_
      rw [Kernel.resume_pcbs, Kernel.saveFrame_pcbs, Function.update_self, Pcb.setFrame_frame]
  | @executes command q _ args bytes hc hq hload =>
      by_cases hroot : s.kernel.IsRoot q
      · refine h.launch_root s.kernel hroot (fun _ ↦ rfl) (fun _ _ ↦ ?_) _ _ _ _
        rw [Event.KeepsContext, hc] at hk
        exact hk q bytes hq hroot hload
      · have hparent : s.kernel.newParent q e.frame = s.kernel.current :=
          (Kernel.newParent_of_not_isRoot hroot).trans he.onStack
        refine h.enters (Kernel.launch_current ..) (fun a ha hac ↦ ?_) fun hne _ ↦ ?_
        · exact Kernel.launch_frame_of_ne _ _ _ _ _ _ _ ha (by rwa [hparent])
        · rw [← hparent] at hne ⊢
          exact Kernel.launch_frame_newParent _ _ _ _ _ _ _ hne
  | @opens tty q _ _ _ hc hun hq =>
      refine h.launch_root (s.kernel.wantsShell tty) (Or.inr rfl) (fun _ ↦ rfl) (fun _ _ ↦ ?_)
        _ _ _ _
      rw [Event.KeepsContext, hc] at hk
      exact hk (Or.inr (by rw [hq]; exact Option.some_ne_none q))
  | focuses hc hopen =>
      refine h.resumes rfl (fun _ _ ↦ rfl) fun _ ↦ ?_
      rw [Event.KeepsContext, hc] at hk
      exact hk (Or.inl hopen)

end Traced.Kept

/-! ## Runs -/

namespace Traced

variable {M : Machine} {s : Traced} {e : Event}

/-- The invariant of runs that keep the context. -/
def Inv (M : Machine) (s : Traced) : Prop := (∃ vid, Designated M s.kernel vid) ∧ s.Kept

/-- What a step of such a run does. -/
theorem Inv.step (hM : M.HasShell) (h : s.Inv M) (he : e.Valid s.kernel)
    (hk : e.KeepsContext M s.kernel) :
    s.Resumes M e ∧ ∃ s', Traced.next M s e = some s' ∧ s'.Inv M := by
  obtain ⟨⟨vid, hd⟩, hkept⟩ := h
  obtain ⟨o, k', hstep, heff⟩ := hd.step_effect hM he
  have hkeeps := hkept.effect hd he hk heff
  refine ⟨fun f ret k'' hstep' g hg ↦ ?_, s.after e (o, k'), ?_, ⟨e.call.asksVideo || vid, ?_⟩,
    hkeeps.kept⟩
  · rw [hstep] at hstep'
    cases hstep'
    exact hkeeps.resumes f ret rfl g hg
  · rw [Traced.next, hstep, Option.map_some]
  · have hkernel : (s.after e (o, k')).kernel = k' := by cases o <;> rfl
    rw [hkernel]
    exact heff.designated he hd

end Traced

/-- **Processes are resumed where they were.**  Take a run in which every step that takes the
processor away without storing `ESP` and `EBP` finds them in the PCB of the running
process.  Then every step that resumes a process loads what that process had when it last
lost the processor, and the run goes through. -/
theorem resumes_where_left (M : Machine) (hM : M.HasShell) (b : BootState) :
    ∃ k₀, boot M b = some k₀ ∧
      ∀ es, Base.AllSteps (Traced.next M)
          (fun s e ↦ e.Valid s.kernel ∧ e.KeepsContext M s.kernel) ⟨k₀, fun _ ↦ none⟩ es →
        Base.AllSteps (Traced.next M) (Traced.Resumes M) ⟨k₀, fun _ ↦ none⟩ es ∧
          ∃ s, Base.exec (Traced.next M) ⟨k₀, fun _ ↦ none⟩ es = some s := by
  obtain ⟨k₀, hboot, hd₀⟩ := Designated.boot hM b
  refine ⟨k₀, hboot, fun es hes ↦ ?_⟩
  have h₀ : Traced.Inv M ⟨k₀, fun _ ↦ none⟩ := ⟨⟨false, hd₀⟩, rfl, fun _ _ hg ↦ (by cases hg)⟩
  have hstep : ∀ s e s', Traced.Inv M s → e.Valid s.kernel ∧ e.KeepsContext M s.kernel →
      Traced.next M s e = some s' → Traced.Inv M s' := by
    intro s e s' hs he hs'
    obtain ⟨_, s'', hs'', hinv⟩ := hs.step hM he.1 he.2
    rw [hs'] at hs''
    cases hs''
    exact hinv
  refine ⟨(Base.AllSteps.inv hstep h₀ hes).mono fun s e h ↦ (h.1.step hM h.2.1 h.2.2).1, ?_⟩
  obtain ⟨s, hs, _⟩ := Base.AllSteps.exec_inv (fun s e hs he ↦ (hs.step hM he.1 he.2).2) h₀ hes
  exact ⟨s, hs⟩

/-- `KeepsContext` as a computation, for the calls of a run without root programs. -/
def Event.checkContext (k : Kernel) (e : Event) : Bool :=
  match e.call with
  | .switchToTty _ => (k.pcbs k.current).frame == e.frame
  | .execute _ => k.freeSlot.all fun q ↦ !decide (k.IsRoot q)
  | _ => true

theorem Event.keepsContext_of_checkContext {M : Machine} {k : Kernel} {e : Event}
    (h : e.checkContext k = true) : e.KeepsContext M k := by
  rw [checkContext] at h
  rw [KeepsContext]
  split
  · rename_i hc
    rw [hc, beq_iff_eq] at h
    exact fun _ ↦ h
  · rename_i hc
    rw [hc] at h
    intro q bytes hq hroot _
    rw [hq, Option.all_some, Bool.not_eq_true', decide_eq_false_iff_not] at h
    exact absurd hroot h
  · trivial

/-- Two terminals that are left right after a tick. -/
theorem resumes_where_left_session :
    ∃ k₀, boot tinyMachine tinyBoot = some k₀ ∧
      Base.AllSteps (Traced.next tinyMachine) (Traced.Resumes tinyMachine) ⟨k₀, fun _ ↦ none⟩
        [tinyEvent 0 (.tick 0), tinyEvent 0 (.switchToTty 1), tinyEvent 1 tinyShell,
          tinyEvent 2 (.halt .syscall 0), tinyEvent 1 (.tick 0), tinyEvent 1 (.switchToTty 0)] := by
  obtain ⟨k₀, hboot, hrun⟩ := resumes_where_left tinyMachine tinyMachine_hasShell tinyBoot
  have hcheck : (boot tinyMachine tinyBoot).all fun k ↦ Base.checkSteps (Traced.next tinyMachine)
      (fun s e ↦ decide (e.Valid s.kernel) && e.checkContext s.kernel) ⟨k, fun _ ↦ none⟩
      [tinyEvent 0 (.tick 0), tinyEvent 0 (.switchToTty 1), tinyEvent 1 tinyShell,
        tinyEvent 2 (.halt .syscall 0), tinyEvent 1 (.tick 0),
        tinyEvent 1 (.switchToTty 0)] := by decide
  rw [hboot, Option.all_some] at hcheck
  refine ⟨k₀, hboot, (hrun _ (Base.AllSteps.of_checkSteps (fun s e h ↦ ?_) hcheck)).1⟩
  rw [Bool.and_eq_true, decide_eq_true_eq] at h
  exact ⟨h.1, Event.keepsContext_of_checkContext h.2⟩

/-- A tick, and a later terminal switch from deeper in the stack: on the way back, the shell
is resumed where the tick was. -/
theorem switch_loses_context :
    ∃ k₀ s k f g, boot tinyMachine tinyBoot = some k₀ ∧
      Base.AllSteps (Traced.next tinyMachine) (fun s e ↦ e.Valid s.kernel) ⟨k₀, fun _ ↦ none⟩
        [{ tinyEvent 0 (.tick 0) with frame := ⟨0x7fff80, 0x7fffc0⟩ },
          tinyEvent 0 (.switchToTty 1), tinyEvent 1 (.switchToTty 0)] ∧
      Base.exec (Traced.next tinyMachine) ⟨k₀, fun _ ↦ none⟩
        [{ tinyEvent 0 (.tick 0) with frame := ⟨0x7fff80, 0x7fffc0⟩ },
          tinyEvent 0 (.switchToTty 1)] = some s ∧
      step tinyMachine s.kernel (tinyEvent 1 (.switchToTty 0)) = some (.resumes f none, k) ∧
      k.current = pcbAddr 0 ∧ s.left (pcbAddr 0) = some g ∧
      g = (tinyEvent 0 (.switchToTty 1)).frame ∧ f = ⟨0x7fff80, 0x7fffc0⟩ ∧ f ≠ g ∧
      ¬ s.Resumes tinyMachine (tinyEvent 1 (.switchToTty 0)) := by
  refine ⟨_, _, _, _, _, rfl, ?_, rfl, rfl, by decide, rfl, rfl, rfl, by decide, fun h ↦ ?_⟩
  · exact Base.AllSteps.of_decide rfl
  · exact absurd (h _ _ _ rfl _ rfl) (by decide)

end Illinix
