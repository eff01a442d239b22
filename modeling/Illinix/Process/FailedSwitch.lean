import Illinix.Process.Forest

/-!
# Terminal switches that cannot start their shell

`switch_to_tty` sets `active_tty` and `next_one_is_root_shell` before it runs the shell
of an unopened terminal, and leaves them so when the shell cannot be run.  The flag is
then consumed by the next program that any process starts: it becomes its own parent, on
the terminal that could not be opened.

This happens exactly when all process numbers are taken at the time of the switch.  In a
run in which every unopened terminal is asked for while a number is free, every switch is
harmless and every program gets the process that started it as its parent; in any other
run some switch is not.
-/

namespace Illinix

/-- What a step should leave alone: a switch that cannot run its shell changes neither the
terminal in front nor the flag, and a program that a process starts has that process as
its parent. -/
structure Harmless (M : Machine) (k : Kernel) (e : Event) : Prop where
  failedSwitch : ∀ tty k', e.call = .switchToTty tty → k.ttyTopPid tty = ttyUnopened →
    execute M (k.wantsShell tty) e.frame e.locals M.shellCommand = some .error →
    next M k e = some k' →
      k'.activeTty = k.activeTty ∧ k'.nextOneIsRootShell = k.nextOneIsRootShell
  parent : ∀ command q eip k', e.call = .execute command →
    execute M k e.frame e.locals command = some (.entered q eip k') →
      (k'.pcbs (pcbAddr q)).parent = k.current ∧ k.current ≠ pcbAddr q

variable {M : Machine} {k : Kernel} {d : Terminals} {e : Event}

/-- A switch that cannot run its shell leaves the flag set. -/
theorem next_of_error {tty : Nat} (hc : e.call = .switchToTty tty)
    (hun : k.ttyTopPid tty = ttyUnopened)
    (hex : execute M (k.wantsShell tty) e.frame e.locals M.shellCommand = some .error) :
    next M k e = some (k.wantsShell tty) := by
  simp only [next, step, hc, switchToTty, if_pos hun, hex, Option.map_some]

/-- Under the relation to the terminals, a step is harmless exactly if it can open the
terminal it asks for. -/
theorem Represents.harmless_iff (hM : M.HasShell) (h : Represents k d) (he : e.Valid k) :
    Harmless M k e ↔ e.CanOpen k := by
  constructor
  · intro hh tty hc hun hnone
    rcases execute_shell hM (k.wantsShell tty) e.frame e.locals with
      ⟨_, hex⟩ | ⟨q, _, _, _, hq, _⟩
    · have hflag := (hh.failedSwitch tty _ hc hun hex (next_of_error hc hun hex)).2
      rw [h.flag] at hflag
      cases hflag
    · have hfree : (k.wantsShell tty).freeSlot = none := hnone
      rw [hfree] at hq
      cases hq
  · intro hopens
    refine ⟨fun tty k' hc hun hex _ ↦ ?_, fun command q eip k' hc hex ↦ ?_⟩
    · rcases execute_shell hM (k.wantsShell tty) e.frame e.locals with
        ⟨hnone, _⟩ | ⟨q, _, _, _, _, hex'⟩
      · exact absurd hnone (hopens tty hc hun)
      · rw [hex] at hex'
        cases hex'
    · rcases execute_cases (M := M) (k := k) (f := e.frame) (l := e.locals)
        (he.word_lt hc) with hex' | ⟨q', eip', args, bytes, hq, _, hex'⟩ | ⟨q', hq, hex'⟩
      · rw [hex] at hex'
        cases hex'
      · rw [hex] at hex'
        cases hex'
        obtain ⟨p, l, hstack, hcur, hlt⟩ := h.exists_running
        obtain ⟨hqlt, hfree⟩ := h.not_used_of_freeSlot hq
        refine ⟨?_, fun heq ↦ ?_⟩
        · rw [Kernel.launch_pcbs_self, Kernel.newPcb_parent_of_not_isRoot (h.not_isRoot hq),
            he.onStack]
        · rw [hcur] at heq
          refine hfree (Or.inl ⟨d.active, ?_⟩)
          rw [← pcbAddr_inj hlt hqlt heq, hstack]
          exact List.mem_cons_self
      · rw [hex] at hex'
        cases hex'

/-- **When failed switches do no harm.**  In a run of valid events, all steps are harmless
if and only if every unopened terminal is asked for while a process number is free. -/
theorem harmless_iff_canOpen (M : Machine) (hM : M.HasShell) (b : BootState) :
    ∃ k₀, boot M b = some k₀ ∧
      ∀ es, Base.AllSteps (next M) (fun k e ↦ e.Valid k ∧ Harmless M k e) k₀ es ↔
        Base.AllSteps (next M) (fun k e ↦ e.Valid k ∧ e.CanOpen k) k₀ es := by
  obtain ⟨k₀, hboot, h₀⟩ := Represents.boot hM b
  refine ⟨k₀, hboot, fun es ↦ ?_⟩
  refine Base.AllSteps.congr (fun k ↦ ∃ d, Represents k d) ?_ ?_ ⟨_, h₀⟩
  · rintro k e k' ⟨d, hd⟩ ⟨he, hh⟩ hk'
    obtain ⟨o, k'', hstep, heff⟩ := step_effect hM he hd.running
    have hnext := next_of_step hstep
    rw [hk'] at hnext
    cases hnext
    obtain ⟨d', hd', _⟩ := heff.represents he ((hd.harmless_iff hM he).mp hh) hd
    exact ⟨d', hd'⟩
  · rintro k e ⟨d, hd⟩
    exact and_congr_right fun he ↦ hd.harmless_iff hM he

/-- `CanOpen` as a computation. -/
def Event.checkOpen (k : Kernel) (e : Event) : Bool :=
  match e.call with
  | .switchToTty tty => k.ttyTopPid tty != ttyUnopened || k.freeSlot.isSome
  | _ => true

theorem Event.canOpen_of_checkOpen {k : Kernel} {e : Event} (h : e.checkOpen k = true) :
    e.CanOpen k := by
  intro tty hc hun hnone
  simp only [checkOpen, hc, hun, hnone, bne_self_eq_false, Option.isSome_none, Bool.or_self] at h
  cases h

/-- Two terminals are opened while numbers are free. -/
theorem harmless_iff_canOpen_session :
    ∃ k₀, boot tinyMachine tinyBoot = some k₀ ∧
      Base.AllSteps (next tinyMachine) (fun k e ↦ e.Valid k ∧ Harmless tinyMachine k e) k₀
        [tinyEvent 0 tinyShell, tinyEvent 1 (.switchToTty 1), tinyEvent 2 tinyShell,
          tinyEvent 3 (.switchToTty 2)] := by
  obtain ⟨k₀, hboot, hiff⟩ := harmless_iff_canOpen tinyMachine tinyMachine_hasShell tinyBoot
  have hcheck : (boot tinyMachine tinyBoot).all fun k ↦ Base.checkSteps (next tinyMachine)
      (fun k e ↦ decide (e.Valid k) && e.checkOpen k) k
      [tinyEvent 0 tinyShell, tinyEvent 1 (.switchToTty 1), tinyEvent 2 tinyShell,
        tinyEvent 3 (.switchToTty 2)] := by decide
  rw [hboot, Option.all_some] at hcheck
  refine ⟨k₀, hboot, (hiff _).mpr (Base.AllSteps.of_checkSteps (fun k e h ↦ ?_) hcheck)⟩
  rw [Bool.and_eq_true, decide_eq_true_eq] at h
  exact ⟨h.1, Event.canOpen_of_checkOpen h.2⟩

/-- Six shells on one terminal, then a switch to another one: it is in front now, with the
flag set.  The top shell ends, the next one starts a program, and that is its own
parent. -/
theorem failed_switch_harms :
    ∃ k₀ k₁ k₂ k₃, boot tinyMachine tinyBoot = some k₀ ∧
      Base.AllSteps (next tinyMachine) (fun k e ↦ e.Valid k) k₀
        [tinyEvent 0 tinyShell, tinyEvent 1 tinyShell, tinyEvent 2 tinyShell,
          tinyEvent 3 tinyShell, tinyEvent 4 tinyShell, tinyEvent 5 (.switchToTty 1),
          tinyEvent 5 (.halt .syscall 0), tinyEvent 4 tinyShell] ∧
      Base.exec (next tinyMachine) k₀ [tinyEvent 0 tinyShell, tinyEvent 1 tinyShell,
        tinyEvent 2 tinyShell, tinyEvent 3 tinyShell, tinyEvent 4 tinyShell] = some k₁ ∧
      next tinyMachine k₁ (tinyEvent 5 (.switchToTty 1)) = some k₂ ∧
      Base.exec (next tinyMachine) k₂
        [tinyEvent 5 (.halt .syscall 0), tinyEvent 4 tinyShell] = some k₃ ∧
      ¬ Harmless tinyMachine k₁ (tinyEvent 5 (.switchToTty 1)) ∧
      k₁.activeTty = 0 ∧ k₂.activeTty = 1 ∧
      k₁.nextOneIsRootShell = false ∧ k₂.nextOneIsRootShell = true ∧
      (k₃.pcbs k₃.current).parent = k₃.current := by
  refine ⟨_, _, _, _, rfl, ?_, rfl, rfl, rfl, ?_, by decide, by decide, by decide, by decide,
    by decide⟩
  · exact Base.AllSteps.of_decide rfl
  · intro hh
    have hflag := (hh.failedSwitch 1 _ rfl rfl rfl rfl).2
    exact absurd hflag (by decide)

end Illinix
