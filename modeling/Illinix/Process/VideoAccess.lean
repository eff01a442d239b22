import Illinix.Process.Designation

/-!
# Who sees the video page

`vidmap` puts the video page into the one page table that all processes share, and no
routine takes it out again.  So the page is visible to whatever process runs, from the
first accepted `vidmap` of any process on: `video_visible_since_vidmap`.

The stronger reading, that a process sees the page only if it asked for it itself, needs
a record of who asked.  `Watched` carries it, and `not_video_private` is a child that
sees the page because its parent asked.
-/

namespace Illinix

/-- The running process has an address for the video page. -/
def Kernel.VideoVisible (M : Machine) (ram : Nat → Nat → Nat) (k : Kernel) : Prop :=
  ∃ v a, v < 2 ^ 32 ∧ translate M.pt ram .user k.paging v = some a ∧ InVideoPage a

/-- **The video page is visible since the first accepted `vidmap`**, to every process. -/
theorem video_visible_since_vidmap (M : Machine) (hM : M.HasShell) (b : BootState)
    (ram : Nat → Nat → Nat) :
    ∃ k₀, boot M b = some k₀ ∧
      ∀ es, Base.AllSteps (next M) (fun k e ↦ e.Valid k) k₀ es →
        ∃ k, Base.exec (next M) k₀ es = some k ∧
          (k.VideoVisible M ram ↔ ∃ e ∈ es, ∃ p, e.call = .vidmap p ∧ InUserRange p) := by
  obtain ⟨k₀, hboot, h₀⟩ := Designated.boot hM b
  refine ⟨k₀, hboot, fun es hes ↦ ?_⟩
  obtain ⟨k, hexec, made, r, _, _, hd⟩ := h₀.exec hM hes
  refine ⟨k, hexec, ?_⟩
  have hlast : ∀ pid, some r = some pid → pid < maxNumProcesses := by
    rintro pid ⟨⟩
    exact hd.lt
  rw [Kernel.VideoVisible, hd.layout.video_visible_iff hlast, Bool.or_false, List.any_eq_true]
  refine exists_congr fun e ↦ and_congr_right fun _ ↦ ?_
  cases hc : e.call with
  | vidmap p => simp [Call.asksVideo]
  | _ => simp [Call.asksVideo]

/-- A run that leads to a shell started after a `vidmap`. -/
theorem video_visible_in_child :
    ∃ k₀ k, boot tinyMachine tinyBoot = some k₀ ∧
      Base.exec (next tinyMachine) k₀
        [tinyEvent 0 (.vidmap 0x08000000), tinyEvent 0 tinyShell] = some k ∧
      k.VideoVisible tinyMachine fun _ _ ↦ 0 := by
  obtain ⟨k₀, hboot, hrun⟩ := video_visible_since_vidmap tinyMachine tinyMachine_hasShell tinyBoot
    fun _ _ ↦ 0
  have hcheck : (boot tinyMachine tinyBoot).all fun k ↦ Base.checkSteps (next tinyMachine)
      (fun k e ↦ decide (e.Valid k)) k
      [tinyEvent 0 (.vidmap 0x08000000), tinyEvent 0 tinyShell] := by decide
  rw [hboot, Option.all_some] at hcheck
  obtain ⟨k, hexec, hiff⟩ := hrun _
    (Base.AllSteps.of_decide hcheck)
  exact ⟨k₀, k, hboot, hexec, hiff.mpr ⟨_, List.mem_cons_self, 0x08000000, rfl, by decide⟩⟩

/-! ## Asking for oneself -/

/-- The kernel with a record of the processes that have called `vidmap` themselves since
they were created. -/
structure Watched where
  kernel : Kernel
  asked : Nat → Bool

namespace Watched

/-- The record after a step: a `vidmap` that returns 0 enters the running process, and a
new process has not asked yet. -/
def record (w : Watched) : Outcome → Nat → Bool
  | .enters pid _ => Function.update w.asked (pcbAddr pid) false
  | .stays (some 0) => Function.update w.asked w.kernel.current true
  | _ => w.asked

def next (M : Machine) (w : Watched) (e : Event) : Option Watched :=
  (step M w.kernel e).map fun (o, k) ↦ ⟨k, w.record o⟩

end Watched

/-- The processes that see the video page are those that asked for it. -/
def VideoPrivate (M : Machine) (b : BootState) (ram : Nat → Nat → Nat) : Prop :=
  ∀ k₀ es w, boot M b = some k₀ → Base.AllSteps (next M) (fun k e ↦ e.Valid k) k₀ es →
    Base.exec (Watched.next M) ⟨k₀, fun _ ↦ false⟩ es = some w →
    (w.kernel.VideoVisible M ram ↔ w.asked w.kernel.current = true)

/-- A child sees the page that its parent asked for. -/
theorem not_video_private : ¬ VideoPrivate tinyMachine tinyBoot fun _ _ ↦ 0 := by
  intro h
  obtain ⟨k₀, hboot⟩ : ∃ k₀, boot tinyMachine tinyBoot = some k₀ := ⟨_, rfl⟩
  obtain ⟨w, hw⟩ : ∃ w, Base.exec (Watched.next tinyMachine) ⟨k₀, fun _ ↦ false⟩
      [tinyEvent 0 (.vidmap 0x08000000), tinyEvent 0 tinyShell] = some w := by
    cases hboot
    exact ⟨_, rfl⟩
  have hvalid : Base.AllSteps (next tinyMachine) (fun k e ↦ e.Valid k) k₀
      [tinyEvent 0 (.vidmap 0x08000000), tinyEvent 0 tinyShell] := by
    cases hboot
    exact Base.AllSteps.of_decide rfl
  have hiff := h k₀ _ w hboot hvalid hw
  cases hboot
  cases hw
  have hasked := hiff.mp ⟨vidmapAddr, video, by decide, by decide, by decide, by decide⟩
  exact absurd hasked (by decide)

end Illinix
