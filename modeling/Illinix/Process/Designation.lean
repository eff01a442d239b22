import Illinix.Base.Run
import Illinix.Process.Effect

/-!
# Page, kernel stack and PCB belong to one process

Four routines work out the page, the kernel stack and the PCB of the process they go to,
each from its own variable.  They agree because of what the PCBs hold: `Registry k made`
says that the PCBs of the numbers in `made` name themselves, their parents and their
terminals consistently, and that a terminal on record is either unopened or on top of
one of them.  Nothing here depends on which processes are alive, so the invariant also
survives terminal switches that fail and programs that do not fit in their page.
-/

namespace Illinix

/-- The PCBs of the process numbers in `made` hold what `execute` puts there. -/
structure Registry (k : Kernel) (made : Nat → Prop) : Prop where
  lt : ∀ p, made p → p < maxNumProcesses
  num : ∀ p, made p → (k.pcbs (pcbAddr p)).processNum = p
  tty_lt : ∀ p, made p → (k.pcbs (pcbAddr p)).tty < maxTty
  parent : ∀ p, made p → ∃ p', made p' ∧ (k.pcbs (pcbAddr p)).parent = pcbAddr p'
  tty_top : ∀ p, made p → made (k.ttyTopPid (k.pcbs (pcbAddr p)).tty)
  top : ∀ t, t < maxTty → k.ttyTopPid t = ttyUnopened ∨ made (k.ttyTopPid t)
  active_lt : k.activeTty < maxTty

/-- The page directory, the TSS and the PCB in use are those of `r`. -/
structure Designates (M : Machine) (k : Kernel) (vid : Bool) (r : Nat) : Prop where
  lt : r < maxNumProcesses
  layout : Layout M.pt (some r) vid k.paging
  esp0 : k.esp0 = stackTop r
  current : k.current = pcbAddr r
  num : (k.pcbs k.current).processNum = r

/-- One process of the registry has the page, the stack and the PCB. -/
def Designated (M : Machine) (k : Kernel) (vid : Bool) : Prop :=
  ∃ made r, Registry k made ∧ made r ∧ Designates M k vid r

namespace Registry

variable {M : Machine} {k : Kernel} {made : Nat → Prop}

/-- The registry depends on the links and on the terminals only. -/
theorem congr {k' : Kernel} (h : Registry k made)
    (hlinks : ∀ a, Pcb.SameLinks (k.pcbs a) (k'.pcbs a)) (htop : k'.ttyTopPid = k.ttyTopPid)
    (hactive : k'.activeTty < maxTty) : Registry k' made where
  lt := h.lt
  num p hp := by rw [(hlinks _).processNum, h.num p hp]
  tty_lt p hp := by rw [(hlinks _).tty]; exact h.tty_lt p hp
  parent p hp := by rw [(hlinks _).parent]; exact h.parent p hp
  tty_top p hp := by rw [(hlinks _).tty, htop]; exact h.tty_top p hp
  top t ht := by rw [htop]; exact h.top t ht
  active_lt := hactive

theorem saveFrame (h : Registry k made) (a : Nat) (f : Frame) :
    Registry (k.saveFrame a f) made :=
  h.congr (fun x ↦ (Pcb.SameLinks.setFrame _ _).update x) rfl h.active_lt

theorem atTty (h : Registry k made) {tty : Nat} (ht : tty < maxTty) :
    Registry (k.atTty tty) made :=
  h.congr (fun _ ↦ .refl _) rfl ht

theorem running (h : Registry k made) {r : Nat} (hr : made r) (hcur : k.current = pcbAddr r) :
    k.Running where
  num_lt := by rw [hcur, h.num r hr]; exact h.lt r hr
  tty_lt := by rw [hcur]; exact h.tty_lt r hr
  top_lt := by rw [hcur]; exact h.lt _ (h.tty_top r hr)

/-- A new process, whose parent is itself or one of those made before. -/
theorem launch (h : Registry k made) {q : Nat} (hq : q < maxNumProcesses) {f : Frame}
    (hparent : k.IsRoot q ∨ ∃ p, made p ∧ getPcb f.esp = pcbAddr p) (l : Locals)
    (args bytes : List UInt8) : Registry (k.launch M q f l args bytes) fun p ↦ made p ∨ p = q := by
  have hne : ∀ p, made p → p ≠ q → pcbAddr p ≠ pcbAddr q := fun p hp hpq heq ↦
    hpq (pcbAddr_inj (h.lt p hp) hq heq)
  have hmade : ∀ t, made (k.ttyTopPid t) → made ((k.launch M q f l args bytes).ttyTopPid t) ∨
      (k.launch M q f l args bytes).ttyTopPid t = q := by
    intro t ht
    rw [Kernel.launch_ttyTopPid]
    by_cases hta : t = k.activeTty
    · subst hta
      exact Or.inr (Function.update_self ..)
    · rw [Function.update_of_ne hta]
      exact Or.inl ht
  constructor
  case lt =>
    rintro p (hp | rfl)
    · exact h.lt p hp
    · exact hq
  case num =>
    rintro p hp
    by_cases hpq : p = q
    · subst hpq
      rw [Kernel.launch_pcbs_self]
      rfl
    · have hp := hp.resolve_right hpq
      rw [(Kernel.launch_sameLinks M k q f l args bytes (hne p hp hpq)).processNum, h.num p hp]
  case tty_lt =>
    rintro p hp
    by_cases hpq : p = q
    · subst hpq
      rw [Kernel.launch_pcbs_self]
      exact h.active_lt
    · have hp := hp.resolve_right hpq
      rw [(Kernel.launch_sameLinks M k q f l args bytes (hne p hp hpq)).tty]
      exact h.tty_lt p hp
  case parent =>
    rintro p hp
    by_cases hpq : p = q
    · subst hpq
      rw [Kernel.launch_pcbs_self]
      by_cases hroot : k.IsRoot p
      · exact ⟨p, Or.inr rfl, Kernel.newPcb_parent_of_isRoot hroot⟩
      · obtain ⟨p', hp', heq⟩ := hparent.resolve_left hroot
        exact ⟨p', Or.inl hp', (Kernel.newPcb_parent_of_not_isRoot hroot).trans heq⟩
    · have hp := hp.resolve_right hpq
      obtain ⟨p', hp', heq⟩ := h.parent p hp
      refine ⟨p', Or.inl hp', ?_⟩
      rw [(Kernel.launch_sameLinks M k q f l args bytes (hne p hp hpq)).parent, heq]
  case tty_top =>
    rintro p hp
    by_cases hpq : p = q
    · subst hpq
      rw [Kernel.launch_pcbs_self]
      exact Or.inr (Function.update_self ..)
    · have hp := hp.resolve_right hpq
      rw [(Kernel.launch_sameLinks M k q f l args bytes (hne p hp hpq)).tty]
      exact hmade _ (h.tty_top p hp)
  case top =>
    intro t ht
    by_cases hta : t = k.activeTty
    · subst hta
      exact Or.inr (Or.inr (Function.update_self ..))
    · rcases h.top t ht with hun | hm
      · refine Or.inl ?_
        rw [Kernel.launch_ttyTopPid, Function.update_of_ne hta, hun]
      · exact Or.inr (hmade t hm)
  case active_lt => exact h.active_lt

variable {vid : Bool} {last : Option Nat}

theorem designated_launch (h : Registry k made) (hlayout : Layout M.pt last vid k.paging) {q : Nat}
    (hq : k.freeSlot = some q) {f : Frame}
    (hparent : k.IsRoot q ∨ ∃ p, made p ∧ getPcb f.esp = pcbAddr p) (l : Locals) (args bytes : List UInt8) :
    Designated M (k.launch M q f l args bytes) vid := by
  have hlt := (Kernel.freeSlot_eq_some.mp hq).1
  have hreg : Registry (k.launch M q f l args bytes) _ := h.launch hlt hparent l args bytes
  refine ⟨_, q, hreg, Or.inr rfl, hlt, hlayout.createPage hlt, rfl, rfl, ?_⟩
  exact hreg.num q (Or.inr rfl)

theorem designated_resume (h : Registry k made) (hlayout : Layout M.pt last vid k.paging) {r : Nat}
    (hr : made r) : Designated M (k.resume M r (pcbAddr r)) vid := by
  have hreg : Registry (k.resume M r (pcbAddr r)) made :=
    h.congr (fun _ ↦ .refl _) rfl h.active_lt
  exact ⟨made, r, hreg, hr, h.lt r hr, hlayout.createPage (h.lt r hr), rfl, rfl, hreg.num r hr⟩

theorem designated_returnToParent (h : Registry k made) (hlayout : Layout M.pt last vid k.paging)
    {r : Nat} (hr : made r) :
    Designated M (k.returnToParent M (pcbAddr r)).2 vid := by
  obtain ⟨p, hp, hparent⟩ := h.parent r hr
  have hnum : (k.pcbs (k.pcbs (pcbAddr r)).parent).processNum = p := by
    rw [hparent, h.num p hp]
  have hmade : ∀ t, made (k.ttyTopPid t) →
      made (Function.update k.ttyTopPid (k.pcbs (pcbAddr r)).tty p t) := by
    intro t ht
    by_cases hta : t = (k.pcbs (pcbAddr r)).tty
    · subst hta
      rw [Function.update_self]
      exact hp
    · rw [Function.update_of_ne hta]
      exact ht
  rw [Kernel.returnToParent_kernel M (h.num r hr) hnum]
  refine ⟨made, p, ⟨h.lt, h.num, h.tty_lt, h.parent, ?_, ?_, h.active_lt⟩, hp, h.lt p hp,
    hlayout.createPage (h.lt p hp), rfl, hparent, hnum⟩
  · intro p' hp'
    dsimp only [Kernel.resume]
    exact hmade _ (h.tty_top p' hp')
  · intro t ht
    dsimp only
    rcases h.top t ht with hun | hm
    · by_cases hta : t = (k.pcbs (pcbAddr r)).tty
      · subst hta
        exact Or.inr (hmade _ (h.tty_top r hr))
      · rw [Function.update_of_ne hta]
        exact Or.inl hun
    · exact Or.inr (hmade t hm)

/-- Ending a process, whatever its page and stack. -/
theorem designated_halt (h : Registry k made) (hlayout : Layout M.pt last vid k.paging) {r : Nat}
    (hr : made r) (hcur : k.current = pcbAddr r) {f : Frame} (hf : getPcb f.esp = k.current)
    {l : Locals} {ebx : Int} {o : Outcome} {k' : Kernel}
    (heff : HaltEffect M k f l ebx o k') : Designated M k' vid := by
  have hclosed : Registry (k.closed ebx) made :=
    h.congr (k.closeFiles_sameLinks _ ebx) rfl h.active_lt
  cases heff with
  | restarts _ hq =>
      have hretired : Registry (k.retired ebx) made :=
        hclosed.congr (fun _ ↦ .refl _) rfl h.active_lt
      exact hretired.designated_launch hlayout hq (Or.inr ⟨r, hr, hf.trans hcur⟩) _ _ _
  | returns _ =>
      rw [hcur]
      exact hclosed.designated_returnToParent hlayout hr

end Registry

variable {M : Machine} {k k' : Kernel} {vid : Bool}

/-- The call makes the video page visible. -/
def Call.asksVideo : Call → Bool
  | .vidmap p => decide (InUserRange p)
  | _ => false

/-- Whatever a step does, one process has page, stack and PCB afterwards. -/
theorem Effect.designated {e : Event} {o : Outcome} (he : e.Valid k) (h : Designated M k vid)
    (heff : Effect M k e o k') : Designated M k' (e.call.asksVideo || vid) := by
  obtain ⟨made, r, hreg, hr, hd⟩ := h
  have hparent : ∃ p, made p ∧ getPcb e.frame.esp = pcbAddr p :=
    ⟨r, hr, he.onStack.trans hd.current⟩
  cases heff with
  | executeFails hc _ =>
      rw [hc]
      exact ⟨made, r, hreg, hr, hd⟩
  | vidmapFails hc hp =>
      rw [hc, Call.asksVideo, decide_eq_false hp]
      exact ⟨made, r, hreg, hr, hd⟩
  | @vidmaps p mem hc hp =>
      rw [hc, Call.asksVideo, decide_eq_true hp]
      have hreg' : Registry { k.vidmapped M with mem := mem } made :=
        hreg.congr (fun _ ↦ .refl _) rfl hreg.active_lt
      exact ⟨made, r, hreg', hr, hd.lt, hd.layout.setVidmap, hd.esp0, hd.current, hd.num⟩
  | vidmapFaults hc hp hh =>
      rw [hc, Call.asksVideo, decide_eq_true hp]
      have hreg' : Registry (k.vidmapped M) made :=
        hreg.congr (fun _ ↦ .refl _) rfl hreg.active_lt
      exact hreg'.designated_halt hd.layout.setVidmap hr hd.current he.onStack hh
  | tickStays hc =>
      rw [hc]
      refine ⟨made, r, hreg.saveFrame k.current e.frame, hr, hd.lt, hd.layout, hd.esp0,
        hd.current, ?_⟩
      exact ((Pcb.SameLinks.setFrame _ _).update k.current).processNum.trans hd.num
  | tickSwitches hc hnext _ =>
      rw [hc]
      refine (hreg.saveFrame k.current e.frame).designated_resume hd.layout ?_
      rw [hnext, hd.current]
      exact hreg.tty_top r hr
  | executes hc hq _ =>
      rw [hc]
      exact hreg.designated_launch hd.layout hq (Or.inr hparent) _ _ _
  | @executeFaults command q _ _ hc hq _ hh =>
      rw [hc]
      have hreg' : Registry (k.faulted M q e.locals.mem) made :=
        hreg.congr (fun _ ↦ .refl _) rfl hreg.active_lt
      exact hreg'.designated_halt (hd.layout.createPage (Kernel.freeSlot_eq_some.mp hq).1) hr
        hd.current he.onStack hh
  | @opens tty q _ _ _ hc _ hq =>
      rw [hc]
      have hreg' : Registry (k.wantsShell tty) made :=
        hreg.congr (fun _ ↦ .refl _) rfl (he.tty_lt hc)
      exact hreg'.designated_launch hd.layout hq (Or.inr hparent) _ _ _
  | @openFails tty hc _ _ =>
      rw [hc]
      have hreg' : Registry (k.wantsShell tty) made :=
        hreg.congr (fun _ ↦ .refl _) rfl (he.tty_lt hc)
      exact ⟨made, r, hreg', hr, hd.lt, hd.layout, hd.esp0, hd.current, hd.num⟩
  | @focuses tty hc hopen =>
      rw [hc]
      exact (hreg.atTty (he.tty_lt hc)).designated_resume hd.layout
        ((hreg.top tty (he.tty_lt hc)).resolve_left hopen)
  | halts hc hh =>
      rw [hc]
      exact hreg.designated_halt hd.layout hr hd.current he.onStack hh

/-- Where the processor goes is the process whose PCB is in use: the PCB of a new process, or the one
that the stack and frame pointers are loaded from. -/
def Outcome.GoesTo (k k' : Kernel) : Outcome → Prop
  | .stays _ => k'.current = k.current
  | .enters pid _ => k'.current = pcbAddr pid
  | .resumes f _ => f = (k'.pcbs k'.current).frame

theorem HaltEffect.goesTo {f : Frame} {l : Locals} {ebx : Int} {o : Outcome}
    (h : HaltEffect M k f l ebx o k') (k₀ : Kernel) : o.GoesTo k₀ k' := by
  cases h with
  | restarts _ _ => rfl
  | returns _ => rfl

theorem Effect.goesTo {e : Event} {o : Outcome} (h : Effect M k e o k') : o.GoesTo k k' := by
  cases h with
  | executeFails _ _ => rfl
  | vidmapFails _ _ => rfl
  | vidmaps _ _ => rfl
  | vidmapFaults _ _ hh => exact hh.goesTo k
  | tickStays _ => rfl
  | tickSwitches _ _ _ => rfl
  | executes _ _ _ => rfl
  | executeFaults _ _ _ hh => exact hh.goesTo k
  | opens _ _ _ => rfl
  | openFails _ _ _ => rfl
  | focuses _ _ => rfl
  | halts _ hh => exact hh.goesTo k

/-! ## Runs -/

theorem Designated.running (h : Designated M k vid) : k.Running := by
  obtain ⟨made, r, hreg, hr, hd⟩ := h
  exact hreg.running hr hd.current

/-- Under the invariant a step goes through. -/
theorem Designated.step_effect (hM : M.HasShell) {e : Event} (he : e.Valid k)
    (h : Designated M k vid) : ∃ o k', step M k e = some (o, k') ∧ Effect M k e o k' :=
  Illinix.step_effect hM he h.running

theorem next_of_step {e : Event} {o : Outcome} (h : step M k e = some (o, k')) :
    next M k e = some k' := by
  rw [next, h]
  rfl

theorem Designated.boot (hM : M.HasShell) (b : BootState) :
    ∃ k, Illinix.boot M b = some k ∧ Designated M k false := by
  obtain ⟨args, bytes, hboot⟩ := boot_effect hM b
  refine ⟨_, hboot, ?_⟩
  have hreg : Registry (bootKernel M b) fun _ ↦ False :=
    ⟨fun _ ↦ False.elim, fun _ ↦ False.elim, fun _ ↦ False.elim, fun _ ↦ False.elim,
      fun _ ↦ False.elim, fun _ _ ↦ Or.inl rfl, Nat.zero_lt_succ _⟩
  exact hreg.designated_launch (Layout.init M.pt b.paging) rfl (Or.inl (Or.inl rfl)) _ _ _

/-- Every run of valid events goes through and keeps the invariant; the video page has
become visible exactly if one of the events asked for it. -/
theorem Designated.exec (hM : M.HasShell) {es : List Event} (h : Designated M k vid)
    (hes : Base.AllSteps (next M) (fun k e ↦ e.Valid k) k es) :
    ∃ k', Base.exec (next M) k es = some k' ∧
      Designated M k' (es.any (fun e ↦ e.call.asksVideo) || vid) := by
  induction es generalizing k vid with
  | nil => exact ⟨k, rfl, h⟩
  | cons e es ih =>
      obtain ⟨he, hrest⟩ := hes
      obtain ⟨o, k₁, hstep, heff⟩ := h.step_effect hM he
      have hnext := next_of_step hstep
      obtain ⟨k', hexec, hk'⟩ := ih (heff.designated he h) (hrest k₁ hnext)
      refine ⟨k', Base.exec_cons_eq_some.mpr ⟨k₁, hnext, hexec⟩, ?_⟩
      rwa [List.any_cons, Bool.or_assoc, Bool.or_left_comm]

/-- **Page, kernel stack and PCB designate one process.**  From the first shell on, every
run of valid events goes through, and it ends with one process number `r` whose frame is
the user page, whose kernel stack is in the TSS, and whose PCB is the one that was made
or loaded last and holds the number `r`: the next step again makes or loads that of
`current`.  And the mask of `get_pcb` finds that PCB from anywhere in the stack. -/
theorem one_process_designated (M : Machine) (hM : M.HasShell) (b : BootState) :
    ∃ k₀, boot M b = some k₀ ∧
      (∀ es, Base.AllSteps (next M) (fun k e ↦ e.Valid k) k₀ es →
        ∃ k, Base.exec (next M) k₀ es = some k ∧
          (∃ r, r < maxNumProcesses ∧ k.paging.pageDir 32 = userFrame r ||| 0x87 ∧
            k.esp0 = eightMeg - eightKb * r - 4 ∧ k.current = eightMeg - eightKb * (r + 1) ∧
            (k.pcbs k.current).processNum = r) ∧
          ∀ e o k', e.Valid k → step M k e = some (o, k') → o.GoesTo k k') ∧
      ∀ r esp, r < maxNumProcesses → eightMeg - eightKb * (r + 1) ≤ esp →
        esp ≤ eightMeg - eightKb * r - 4 → getPcb esp = eightMeg - eightKb * (r + 1) := by
  have hpcb : ∀ r, eightMeg - eightKb * (r + 1) = pcbAddr r := fun r ↦ by
    rw [pcbAddr, Nat.mul_comm]
    rfl
  have htop : ∀ r, eightMeg - eightKb * r - 4 = stackTop r := fun r ↦ by
    rw [stackTop, Nat.mul_comm]
    rfl
  obtain ⟨k₀, hboot, h₀⟩ := Designated.boot hM b
  refine ⟨k₀, hboot, fun es hes ↦ ?_, fun r esp hr hlo hhi ↦ ?_⟩
  · obtain ⟨k, hexec, hk⟩ := h₀.exec hM hes
    refine ⟨k, hexec, ?_, fun e o k' he hstep ↦ ?_⟩
    · obtain ⟨made, r, _, _, hd⟩ := hk
      refine ⟨r, hd.lt, ?_, hd.esp0.trans (htop r).symm, hd.current.trans (hpcb r).symm, hd.num⟩
      rw [hd.layout.dir_user, Option.elim_some]
    · obtain ⟨o', k'', hstep', heff⟩ := hk.step_effect hM he
      cases hstep.symm.trans hstep'
      exact heff.goesTo
  · rw [hpcb] at hlo ⊢
    rw [htop] at hhi
    exact getPcb_eq hr hlo hhi

/-- A shell in a shell, a tick, a second terminal, and back. -/
theorem one_process_designated_session :
    ∃ k₀ k r, boot tinyMachine tinyBoot = some k₀ ∧
      Base.exec (next tinyMachine) k₀ [tinyEvent 0 tinyShell, tinyEvent 1 (.tick 0),
        tinyEvent 1 (.switchToTty 1), tinyEvent 2 (.switchToTty 0),
        tinyEvent 1 (.halt .syscall 0)] = some k ∧
      r < maxNumProcesses ∧ k.current = eightMeg - eightKb * (r + 1) := by
  obtain ⟨k₀, hboot, hrun, _⟩ := one_process_designated tinyMachine tinyMachine_hasShell tinyBoot
  have hcheck : (boot tinyMachine tinyBoot).all fun k ↦ Base.checkSteps (next tinyMachine)
      (fun k e ↦ decide (e.Valid k)) k [tinyEvent 0 tinyShell, tinyEvent 1 (.tick 0),
        tinyEvent 1 (.switchToTty 1), tinyEvent 2 (.switchToTty 0),
        tinyEvent 1 (.halt .syscall 0)] := by decide
  rw [hboot, Option.all_some] at hcheck
  obtain ⟨k, hexec, ⟨r, hr, _, _, hcur, _⟩, _⟩ := hrun _
    (Base.AllSteps.of_decide hcheck)
  exact ⟨k₀, k, r, hboot, hexec, hr, hcur⟩

end Illinix
