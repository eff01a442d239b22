import Illinix.Process.Forest

/-!
# Pending `execute` calls

While a program runs, the `execute` call that started it is pending on the kernel stack of
its parent, and `halt` finds it through the `ESP` and `EBP` in the PCB of the parent.
Every tick of the PIT overwrites these fields in the process it interrupts.  The pending
call survives because a process with a child below the top of a terminal never runs.

`Pending` adds to the kernel the stack and frame pointers of the call that created each
process, and `Linked` says that the parent's PCB still holds them.  This is so of every
process on a terminal; a number that is lost to a program too long for the user page has no
call of its own, and the PCB that some process before it left.  What the pending call
returns when the child ends is another matter: it is always 0.
-/

namespace Illinix

namespace Represents

variable {k : Kernel} {d : Terminals}

/-- The parent of a process is on the same terminal. -/
theorem parent_mem (h : Represents k d) {t c : Nat} (hc : c ∈ d.stack t) :
    ∃ p ∈ d.stack t, (k.pcbs (pcbAddr c)).parent = pcbAddr p := by
  obtain ⟨top, l, hstack⟩ := List.exists_cons_of_ne_nil (List.ne_nil_of_mem hc)
  have hmem := (h.stacked.chain t top l hstack).parent_mem
    (List.mem_map_of_mem (by rwa [← hstack]))
  rw [← hstack] at hmem
  obtain ⟨p, hp, heq⟩ := List.mem_map.mp hmem
  exact ⟨p, hp, heq.symm⟩

/-- **A process that waits for a child does not run.** -/
theorem parent_ne_current (h : Represents k d) {t c : Nat} (hc : c ∈ d.stack t)
    (hroot : (k.pcbs (pcbAddr c)).parent ≠ pcbAddr c) :
    (k.pcbs (pcbAddr c)).parent ≠ k.current := by
  intro heq
  obtain ⟨top, l, hstack, hcur, hlt⟩ := h.exists_running
  obtain ⟨p, hp, hparent⟩ := h.parent_mem hc
  have htop : top ∈ d.stack d.active := by rw [hstack]; exact List.mem_cons_self
  have hptop : p = top := by
    rw [hparent, hcur] at heq
    exact pcbAddr_inj (h.valid.lt t p hp) hlt heq
  have htt : t = d.active := h.valid.disjoint t d.active p hp (by rwa [hptop])
  have hchain := h.stacked.chain d.active top l hstack
  have hself : pcbAddr c = pcbAddr top := by
    refine hchain.eq_head_of_parent_eq ?_ (heq.trans hcur)
    exact List.mem_map_of_mem (by rwa [← hstack, ← htt])
  rw [heq, hcur, hself] at hroot
  exact hroot rfl

/-- The parent of a process does not have a free number. -/
theorem parent_ne_free (h : Represents k d) {t c q : Nat} (hc : c ∈ d.stack t)
    (hq : k.freeSlot = some q) : (k.pcbs (pcbAddr c)).parent ≠ pcbAddr q := by
  intro heq
  obtain ⟨hlt, hfree⟩ := h.not_used_of_freeSlot hq
  obtain ⟨p, hp, hparent⟩ := h.parent_mem hc
  rw [hparent] at heq
  rw [← pcbAddr_inj (h.valid.lt t p hp) hlt heq] at hfree
  exact hfree (Or.inl ⟨t, hp⟩)

/-- A process in the table is on a terminal, unless it is lost. -/
theorem mem_stack_of_live (h : Represents k d) {c : Nat} (hc : c < maxNumProcesses)
    (hlive : k.processes c = 1) (hlost : ¬ d.lost c) : ∃ t, c ∈ d.stack t := by
  by_cases hused : d.Used c
  · exact hused.resolve_right hlost
  · rw [(h.used c hc).2 hused] at hlive
    cases hlive

end Represents

/-- The kernel, with the stack and frame pointers of the `execute` calls that created the
processes. -/
structure Pending where
  kernel : Kernel
  born : Nat → Option Frame

namespace Pending

/-- The record after a step: a new process comes from the call of this step. -/
def after (s : Pending) (e : Event) : Outcome × Kernel → Pending
  | (.enters pid _, k') => ⟨k', Function.update s.born (pcbAddr pid) (some e.frame)⟩
  | (_, k') => ⟨k', s.born⟩

def next (M : Machine) (s : Pending) (e : Event) : Option Pending :=
  (step M s.kernel e).map (s.after e)

/-- If process `c` is not a root, the PCB of its parent holds the frame of the call that created
it. -/
def Kept (s : Pending) (c : Nat) : Prop :=
  (s.kernel.pcbs (pcbAddr c)).parent ≠ pcbAddr c →
    s.born (pcbAddr c) = some (s.kernel.pcbs (s.kernel.pcbs (pcbAddr c)).parent).frame

instance (s : Pending) (c : Nat) : Decidable (s.Kept c) := inferInstanceAs (Decidable (_ → _))

/-- The pending calls of the processes in the table are kept, except for those that are lost. -/
def Linked (s : Pending) (lost : Nat → Prop) : Prop :=
  ∀ c, c < maxNumProcesses → s.kernel.processes c = 1 → ¬ lost c → s.Kept c

namespace Linked

variable {M : Machine} {s : Pending} {e : Event} {d d' : Terminals} {k' : Kernel}
  {lost lost' : Nat → Prop}

theorem mono (h : s.Linked lost) (hle : ∀ p, lost p → lost' p) : s.Linked lost' :=
  fun c hc hlive hlost ↦ h c hc hlive fun hp ↦ hlost (hle c hp)

/-- No new process: the links stay, no process appears, and the frames of the processes
that wait stay. -/
theorem same (h : s.Linked lost) (hlinks : ∀ a, Pcb.SameLinks (s.kernel.pcbs a) (k'.pcbs a))
    (hproc : ∀ c, k'.processes c = 1 → s.kernel.processes c = 1)
    (hframe : ∀ c, c < maxNumProcesses → s.kernel.processes c = 1 → ¬ lost c →
      (s.kernel.pcbs (pcbAddr c)).parent ≠ pcbAddr c →
      (k'.pcbs (s.kernel.pcbs (pcbAddr c)).parent).frame =
        (s.kernel.pcbs (s.kernel.pcbs (pcbAddr c)).parent).frame) :
    Linked ⟨k', s.born⟩ lost := by
  intro c hc hlive hlost hroot
  dsimp only at hlive hroot ⊢
  rw [(hlinks _).parent] at hroot ⊢
  rw [hframe c hc (hproc c hlive) hlost hroot]
  exact h c hc (hproc c hlive) hlost hroot

/-- A new process `q`: the others keep their links and the frames they wait for. -/
theorem launch (h : s.Linked lost) {k₁ : Kernel} {q : Nat} (hq : q < maxNumProcesses)
    {f : Frame} {l : Locals} {args bytes : List UInt8}
    (hlinks : ∀ a, Pcb.SameLinks (s.kernel.pcbs a) (k₁.pcbs a))
    (hframes : ∀ a, (k₁.pcbs a).frame = (s.kernel.pcbs a).frame)
    (hproc : ∀ c, c ≠ q → k₁.processes c = 1 → s.kernel.processes c = 1)
    (hparent : ∀ c, c < maxNumProcesses → c ≠ q → k₁.processes c = 1 → ¬ lost c →
      (s.kernel.pcbs (pcbAddr c)).parent ≠ pcbAddr c →
      (s.kernel.pcbs (pcbAddr c)).parent ≠ pcbAddr q ∧
      (s.kernel.pcbs (pcbAddr c)).parent ≠ k₁.newParent q f)
    (hself : (k₁.newPcb q f l args).parent ≠ pcbAddr q → f = e.frame) :
    Linked ⟨k₁.launch M q f l args bytes, Function.update s.born (pcbAddr q) (some e.frame)⟩
      lost := by
  intro c hc hlive hlost hroot
  dsimp only at hlive hroot ⊢
  by_cases hcq : c = q
  · subst hcq
    rw [Kernel.launch_pcbs_self] at hroot ⊢
    have hnew : (k₁.newPcb c f l args).parent = k₁.newParent c f := rfl
    rw [Function.update_self, hnew, Kernel.launch_frame_newParent _ _ _ _ _ _ _ hroot, hself hroot]
  · have hne : pcbAddr c ≠ pcbAddr q := fun heq ↦ hcq (pcbAddr_inj hc hq heq)
    rw [Kernel.launch_processes, Function.update_of_ne hcq] at hlive
    rw [(Kernel.launch_sameLinks M k₁ q f l args bytes hne).parent, (hlinks _).parent] at hroot ⊢
    obtain ⟨hpq, hpf⟩ := hparent c hc hcq hlive hlost hroot
    rw [Function.update_of_ne hne, Kernel.launch_frame_of_ne _ _ _ _ _ _ _ hpq hpf, hframes]
    exact h c hc (hproc c hcq hlive) hlost hroot

/-- A number that is given back makes no process appear. -/
theorem eq_one_of_update_zero {processes : Nat → Nat} {p c : Nat}
    (h : Function.update processes p 0 c = 1) : processes c = 1 := by
  by_cases hcp : c = p
  · rw [hcp, Function.update_self] at h
    cases h
  · rwa [Function.update_of_ne hcp] at h

/-- The running process ends. -/
theorem halt (h : s.Linked d.lost) (hrep : Represents s.kernel d) {f : Frame} {l : Locals}
    {ebx : Int} {o : Outcome} (heff : HaltEffect M s.kernel f l ebx o k') :
    (s.after e (o, k')).Linked d.lost := by
  have hlinks := s.kernel.closeFiles_sameLinks s.kernel.current ebx
  have hframes := s.kernel.closeFiles_frame s.kernel.current ebx
  obtain ⟨p, rest, hstack, hcur, hplt⟩ := hrep.exists_running
  have hp : p ∈ d.stack d.active := by rw [hstack]; exact List.mem_cons_self
  have hnum : ((s.kernel.closed ebx).pcbs s.kernel.current).processNum = p := by
    rw [(hlinks _).processNum, hcur, hrep.stacked.num _ p hp]
  cases heff with
  | @restarts q _ _ _ _ hq =>
      obtain ⟨hqlt, hzero, _⟩ := Kernel.freeSlot_eq_some.mp hq
      have hproc : (s.kernel.retired ebx).processes = Function.update s.kernel.processes p 0 :=
        Kernel.retire_processes hnum
      have hold : ∀ c, (s.kernel.retired ebx).processes c = 1 → s.kernel.processes c = 1 := by
        intro c hc
        rw [hproc] at hc
        exact eq_one_of_update_zero hc
      have hroot : (s.kernel.retired ebx).IsRoot q := Or.inr rfl
      refine h.launch hqlt hlinks hframes (fun c _ ↦ hold c) (fun c hc _ hlive hlost hne ↦ ?_)
        fun hne ↦ absurd (Kernel.newPcb_parent_of_isRoot hroot) hne
      rw [Kernel.newParent_of_isRoot hroot, and_self]
      -- the parent is a process that stays, so it does not have the new number
      intro heq
      obtain ⟨t, ht⟩ := hrep.mem_stack_of_live hc (hold c hlive) hlost
      obtain ⟨x, hx, hparent⟩ := hrep.parent_mem ht
      have hxq : x = q := pcbAddr_inj (hrep.valid.lt t x hx) hqlt (hparent.symm.trans heq)
      have hxp : x ≠ p := by
        rintro rfl
        exact hrep.parent_ne_current ht hne (hparent.trans hcur.symm)
      rw [hproc, ← hxq, Function.update_of_ne hxp,
        (hrep.used x (hrep.valid.lt t x hx)).1 (Or.inl ⟨t, hx⟩)] at hzero
      cases hzero
  | returns hroot =>
      obtain ⟨_, p', l', hstack', _, hparent⟩ := hrep.exists_below hroot
      have hp' : p' ∈ d.stack d.active := by
        rw [hstack']
        exact List.mem_cons_of_mem _ List.mem_cons_self
      have hpnum : ((s.kernel.closed ebx).pcbs
          ((s.kernel.closed ebx).pcbs s.kernel.current).parent).processNum = p' := by
        rw [(hlinks _).parent, hparent, (hlinks _).processNum, hrep.stacked.num _ p' hp']
      have hproc : ((s.kernel.closed ebx).returnToParent M s.kernel.current).2.processes =
          Function.update (Function.update s.kernel.processes p 0) p' 1 :=
        Kernel.returnToParent_processes M hnum hpnum
      refine h.same hlinks (fun c hc ↦ ?_) fun _ _ _ _ _ ↦ hframes _
      rw [hproc] at hc
      by_cases hcp' : c = p'
      · rw [hcp']
        exact (hrep.used p' (hrep.valid.lt _ p' hp')).1 (Or.inl ⟨_, hp'⟩)
      · rw [Function.update_of_ne hcp'] at hc
        exact eq_one_of_update_zero hc

/-- **Every step of the forest keeps the pending calls** of the processes that are not lost. -/
theorem effect (h : s.Linked d.lost) (hrep : Represents s.kernel d) (he : e.Valid s.kernel)
    {o : Outcome} (heff : Effect M s.kernel e o k') (hloses : e.Loses M s.kernel d d') :
    (s.after e (o, k')).Linked d'.lost := by
  have hmono : ∀ {s' : Pending}, s'.Linked d.lost → s'.Linked d'.lost :=
    fun hs' ↦ hs'.mono fun _ ↦ hloses.mono
  cases heff with
  | executeFails _ _ => exact hmono h
  | vidmapFails _ _ => exact hmono h
  | vidmaps _ _ => exact hmono h
  | openFails _ _ _ => exact hmono h
  | focuses _ _ => exact hmono h
  | tickStays _ =>
      refine hmono (h.same (fun a ↦ (Pcb.SameLinks.setFrame _ _).update a) (fun _ ↦ id)
        fun c hc hlive hlost hroot ↦ ?_)
      obtain ⟨t, ht⟩ := hrep.mem_stack_of_live hc hlive hlost
      rw [Kernel.saveFrame_pcbs, Function.update_of_ne (hrep.parent_ne_current ht hroot)]
  | tickSwitches _ hnext hne => exact absurd (hnext.trans hrep.tick_stays) hne
  | vidmapFaults _ _ hh =>
      have hrep' : Represents (s.kernel.vidmapped M) d :=
        hrep.congr (fun _ ↦ .refl _) rfl rfl rfl rfl rfl
      have h' : Linked ⟨s.kernel.vidmapped M, s.born⟩ d.lost := h
      have hhalt := h'.halt (e := e) hrep' hh
      cases o <;> exact hmono hhalt
  | @executeFaults _ q _ _ hc hq hex hh =>
      obtain ⟨-, q', hq', hlost⟩ := hloses.resolve_left fun hfits ↦
        Event.not_fits_of_fault hc hex hfits.1
      cases hq.symm.trans hq'
      -- the number is in the table from here on, but it is lost
      have h' : Linked ⟨s.kernel.faulted M q e.locals.mem, s.born⟩ (d.lose q).lost := by
        intro c hlt hlive hkeep
        obtain ⟨hcl, hcq⟩ := not_or.mp hkeep
        refine h c hlt ?_ hcl
        rwa [← Function.update_of_ne hcq 1 s.kernel.processes]
      have hhalt := h'.halt (e := e) (hrep.faulted hq _) hh
      rw [← hlost] at hhalt
      cases o <;> exact hhalt
  | halts _ hh => exact hmono (h.halt hrep hh)
  | @executes _ q _ args bytes _ hq _ =>
      have hqlt := (Kernel.freeSlot_eq_some.mp hq).1
      refine hmono (h.launch hqlt (fun _ ↦ .refl _) (fun _ ↦ rfl) (fun _ _ ↦ id)
        (fun c hc _ hlive hlost hroot ↦ ?_) fun _ ↦ rfl)
      obtain ⟨t, ht⟩ := hrep.mem_stack_of_live hc hlive hlost
      refine ⟨hrep.parent_ne_free ht hq, ?_⟩
      rw [Kernel.newParent_of_not_isRoot (hrep.not_isRoot hq), he.onStack]
      exact hrep.parent_ne_current ht hroot
  | @opens tty q _ args bytes _ _ hq =>
      have hqlt := (Kernel.freeSlot_eq_some.mp hq).1
      have hroot : (s.kernel.wantsShell tty).IsRoot q := Or.inr rfl
      refine hmono (h.launch hqlt (fun _ ↦ .refl _) (fun _ ↦ rfl) (fun _ _ ↦ id)
        (fun c hc _ hlive hlost hne ↦ ?_)
        fun hne ↦ absurd (Kernel.newPcb_parent_of_isRoot hroot) hne)
      rw [Kernel.newParent_of_isRoot hroot, and_self]
      obtain ⟨t, ht⟩ := hrep.mem_stack_of_live hc hlive hlost
      exact hrep.parent_ne_free ht hq

end Linked

/-! ## Runs -/

variable {M : Machine} {s : Pending} {e : Event} {d : Terminals} {k' : Kernel}

@[simp] theorem after_kernel (o : Outcome) : (s.after e (o, k')).kernel = k' := by
  cases o <;> rfl

theorem next_of_step {o : Outcome} (h : Illinix.step M s.kernel e = some (o, k')) :
    Pending.next M s e = some (s.after e (o, k')) := by
  rw [Pending.next, h, Option.map_some]

/-- The invariant of runs of the forest. -/
structure Inv (s : Pending) (d : Terminals) : Prop where
  represents : Represents s.kernel d
  linked : s.Linked d.lost

theorem Inv.step (hM : M.HasShell) (h : s.Inv d) (he : ForestStep M s.kernel e) :
    ∃ s' d', Pending.next M s e = some s' ∧ s'.Inv d' ∧ e.Loses M s.kernel d d' := by
  obtain ⟨o, k', hstep, heff⟩ := step_effect hM he.valid h.represents.running
  obtain ⟨d', hrep', hloses⟩ := heff.represents he.valid (he.canOpen hM) h.represents
  refine ⟨s.after e (o, k'), d', next_of_step hstep, ⟨?_, ?_⟩, hloses⟩
  · rwa [after_kernel]
  · exact h.linked.effect h.represents he.valid heff hloses

/-- The invariant after boot. -/
theorem Inv.boot (hM : M.HasShell) (b : BootState) :
    ∃ k₀, Illinix.boot M b = some k₀ ∧ Inv ⟨k₀, fun _ ↦ none⟩ Terminals.initial := by
  obtain ⟨k₀, hboot, h₀⟩ := Represents.boot hM b
  refine ⟨k₀, hboot, h₀, fun c hc hlive hlost hroot ↦ ?_⟩
  obtain ⟨t, ht⟩ := h₀.mem_stack_of_live hc hlive hlost
  -- the only process is a root
  obtain ⟨p, hp, hparent⟩ := h₀.parent_mem ht
  rw [Terminals.mem_initial] at ht hp
  dsimp only at hroot
  rw [hparent, ht.2, hp.2] at hroot
  exact absurd rfl hroot

theorem Inv.exec (hM : M.HasShell) {es : List Event} (h : s.Inv d)
    (hes : Base.AllSteps (Pending.next M) (fun s e ↦ ForestStep M s.kernel e) s es) :
    ∃ s', Base.exec (Pending.next M) s es = some s' ∧ ∃ d', s'.Inv d' := by
  refine Base.AllSteps.exec_inv (fun s e ⟨d, hs⟩ he ↦ ?_) ⟨d, h⟩ hes
  obtain ⟨s', d', hnext, hs', -⟩ := hs.step hM he
  exact ⟨s', hnext, d', hs'⟩

/-- A run of valid events goes through, whether the openings succeed or not. -/
theorem exec_designated (hM : M.HasShell) {es : List Event} {vid : Bool}
    (h : Designated M s.kernel vid)
    (hes : Base.AllSteps (Pending.next M) (fun s e ↦ e.Valid s.kernel) s es) :
    ∃ s', Base.exec (Pending.next M) s es = some s' ∧ ∃ vid', Designated M s'.kernel vid' := by
  refine Base.AllSteps.exec_inv (fun s e ⟨vid, hs⟩ he ↦ ?_) ⟨vid, h⟩ hes
  obtain ⟨o, k', hstep, heff⟩ := hs.step_effect hM he
  refine ⟨s.after e (o, k'), next_of_step hstep, e.call.asksVideo || vid, ?_⟩
  rw [after_kernel]
  exact heff.designated he hs

/-- Where every program fits, none is lost. -/
theorem Inv.exec_fits (hM : M.HasShell) {es : List Event} (h : s.Inv d) (hlost : ∀ p, ¬ d.lost p)
    (hes : Base.AllSteps (Pending.next M) (fun s e ↦ ForestStep M s.kernel e) s es)
    (hfits : Base.AllSteps (Pending.next M) (fun s e ↦ e.Fits M s.kernel) s es) :
    ∃ s', Base.exec (Pending.next M) s es = some s' ∧ ∃ d', s'.Inv d' ∧ ∀ p, ¬ d'.lost p := by
  refine Base.AllSteps.exec_inv (fun s e ⟨d, hs, hnone⟩ he ↦ ?_) ⟨d, h, hlost⟩ (hes.and hfits)
  obtain ⟨s', d', hnext, hs', hloses⟩ := hs.step hM he.1
  exact ⟨s', hnext, d', hs', hloses.none_lost_iff.mpr ⟨he.2, hnone⟩⟩

/-- The calls of the processes on the terminals are pending. -/
theorem Inv.kept (h : s.Inv d) {t c : Nat} (hc : c ∈ d.stack t) : s.Kept c := by
  have hlt := h.represents.valid.lt t c hc
  have hlive := (h.represents.used c hlt).1 (Or.inl ⟨t, hc⟩)
  exact h.linked c hlt hlive (h.represents.valid.lost t c hc)

/-- The frame of the call that created the running process is in the PCB of its parent. -/
theorem Inv.born_current (h : s.Inv d)
    (hroot : (s.kernel.pcbs s.kernel.current).parent ≠ s.kernel.current) :
    s.born s.kernel.current =
      some (s.kernel.pcbs (s.kernel.pcbs s.kernel.current).parent).frame := by
  obtain ⟨p, l, hstack, hcur, hlt⟩ := h.represents.exists_running
  have hp : p ∈ d.stack d.active := by rw [hstack]; exact List.mem_cons_self
  rw [hcur] at hroot ⊢
  exact h.kept hp hroot

end Pending

/-! ## The return to the parent -/

section Return

variable {M : Machine} {k k' : Kernel} {e : Event}

/-- What `returnToParent` loads is in the PCB of the parent, and the value is 0. -/
theorem returnToParent_outcome (k : Kernel) (ebx : Int) :
    ((k.closed ebx).returnToParent M k.current).1 =
        .resumes (k.pcbs (k.pcbs k.current).parent).frame (some 0) ∧
      ((k.closed ebx).returnToParent M k.current).2.current = (k.pcbs k.current).parent := by
  have hparent := (k.closeFiles_sameLinks k.current ebx k.current).parent
  rw [← k.closeFiles_frame k.current ebx (k.pcbs k.current).parent, ← hparent]
  exact ⟨rfl, rfl⟩

theorem HaltEffect.of_resumes {f f' : Frame} {l : Locals} {ebx : Int} {o : Outcome}
    {ret : Option Int} (h : HaltEffect M k f l ebx o k') (ho : o = .resumes f' ret) :
    (k.pcbs k.current).parent ≠ k.current ∧
      f' = (k.pcbs (k.pcbs k.current).parent).frame ∧ ret = some 0 := by
  cases h with
  | restarts _ _ => cases ho
  | returns hroot =>
      rw [(returnToParent_outcome k ebx).1] at ho
      cases ho
      exact ⟨hroot, rfl, rfl⟩

/-- A pending call is resumed only from the PCB of the parent, and returns 0. -/
theorem Effect.of_resumes_some {o : Outcome} {f : Frame} {v : Int} (h : Effect M k e o k')
    (ho : o = .resumes f (some v)) :
    (k.pcbs k.current).parent ≠ k.current ∧
      f = (k.pcbs (k.pcbs k.current).parent).frame ∧ v = 0 := by
  have hhalt : ∀ {k₁ : Kernel} {f' : Frame} {l : Locals} {ebx : Int},
      HaltEffect M k₁ f' l ebx o k' → k₁.pcbs = k.pcbs → k₁.current = k.current →
      (k.pcbs k.current).parent ≠ k.current ∧
        f = (k.pcbs (k.pcbs k.current).parent).frame ∧ v = 0 := by
    intro k₁ f' l ebx hh hpcbs hcur
    obtain ⟨hroot, hf, hv⟩ := hh.of_resumes ho
    rw [hpcbs, hcur] at hroot hf
    exact ⟨hroot, hf, Option.some.inj hv⟩
  cases h with
  | vidmapFaults _ _ hh => exact hhalt hh rfl rfl
  | executeFaults _ _ _ hh => exact hhalt hh rfl rfl
  | halts _ hh => exact hhalt hh rfl rfl
  | _ => cases ho

theorem step_halt_of_not_root {ending : Ending} {ebx : Int} (he : e.Valid k)
    (hc : e.call = .halt ending ebx) (hroot : (k.pcbs k.current).parent ≠ k.current) :
    ∃ k', step M k e = some (.resumes (k.pcbs (k.pcbs k.current).parent).frame (some 0), k') ∧
      k'.current = (k.pcbs k.current).parent := by
  obtain ⟨hout, hcur⟩ := returnToParent_outcome (M := M) k ebx
  refine ⟨_, ?_, hcur⟩
  simp only [step, hc, halt, he.onStack, if_neg hroot]
  rw [← hout]

end Return

/-- **When the frame a child returns to is untouched.**  Every run of forest steps goes through.
Afterwards, the PCB of the parent of each process on a terminal that is not a root holds the stack
and frame pointers of the `execute` call that created it, and a `halt` of the process that runs
resumes that very call.  If no `execute` of the run loaded a program too long for the user page, the
same holds of each process in the table. -/
theorem pending_call_kept (M : Machine) (hM : M.HasShell) (b : BootState) :
    ∃ k₀, boot M b = some k₀ ∧
      ∀ es, Base.AllSteps (Pending.next M) (fun s e ↦ ForestStep M s.kernel e)
          ⟨k₀, fun _ ↦ none⟩ es →
        ∃ s, Base.exec (Pending.next M) ⟨k₀, fun _ ↦ none⟩ es = some s ∧
          (Base.AllSteps (Pending.next M) (fun s e ↦ e.Fits M s.kernel) ⟨k₀, fun _ ↦ none⟩ es →
            ∀ c, c < maxNumProcesses → s.kernel.processes c = 1 →
              (s.kernel.pcbs (pcbAddr c)).parent ≠ pcbAddr c →
              s.born (pcbAddr c) =
                some (s.kernel.pcbs (s.kernel.pcbs (pcbAddr c)).parent).frame) ∧
          (∀ t, t < maxTty → s.kernel.ttyTopPid t ≠ ttyUnopened →
            ∃ chain : List Nat, Base.Chain s.kernel.parentOf (pcbAddr (s.kernel.ttyTopPid t))
                (chain.map pcbAddr) ∧
              ∀ c ∈ chain, (s.kernel.pcbs (pcbAddr c)).parent ≠ pcbAddr c →
                s.born (pcbAddr c) =
                  some (s.kernel.pcbs (s.kernel.pcbs (pcbAddr c)).parent).frame) ∧
          ∀ e ending ebx, e.Valid s.kernel → e.call = .halt ending ebx →
            (s.kernel.pcbs s.kernel.current).parent ≠ s.kernel.current →
            ∃ f ret k', step M s.kernel e = some (.resumes f ret, k') ∧
              s.born s.kernel.current = some f ∧
              k'.current = (s.kernel.pcbs s.kernel.current).parent := by
  obtain ⟨k₀, hboot, h₀⟩ := Pending.Inv.boot hM b
  refine ⟨k₀, hboot, fun es hes ↦ ?_⟩
  obtain ⟨s, hexec, d, hs⟩ := h₀.exec hM hes
  refine ⟨s, hexec, fun hfits c hc hlive ↦ ?_, fun t ht hopen ↦ ?_,
    fun e ending ebx he hc hroot ↦ ?_⟩
  · obtain ⟨s', hexec', d', hs', hnone⟩ := h₀.exec_fits hM (fun _ ↦ id) hes hfits
    cases hexec.symm.trans hexec'
    exact hs'.linked c hc hlive (hnone c)
  · obtain ⟨l, hstack⟩ := hs.represents.exists_stack ht hopen
    refine ⟨_, hs.represents.stacked.chain t _ l hstack, fun c hc ↦ ?_⟩
    rw [← hstack] at hc
    exact hs.kept hc
  · obtain ⟨k', hstep, hcur⟩ := step_halt_of_not_root (M := M) he hc hroot
    exact ⟨_, _, k', hstep, hs.born_current hroot, hcur⟩

/-- `ForestStep` is checked on the kernel of a run with a record. -/
theorem forestSteps_of_check {M : Machine} {s : Pending} {es : List Event}
    (h : Base.checkSteps (Pending.next M) (fun s e ↦ e.checkForest M s.kernel) s es = true) :
    Base.AllSteps (Pending.next M) (fun s e ↦ ForestStep M s.kernel e) s es :=
  Base.AllSteps.of_checkSteps (fun _ _ ↦ ForestStep.of_checkForest) h

/-- A child and a grandchild, with ticks and another terminal in between. -/
def pendingSession : List Event :=
  [tinyEvent 0 tinyShell, tinyEvent 1 (.tick 0), tinyEvent 1 tinyShell,
    tinyEvent 2 (.switchToTty 1), tinyEvent 3 (.tick 7), tinyEvent 3 (.switchToTty 0)]

theorem pending_call_kept_session :
    ∃ k₀ s f ret k', boot tinyMachine tinyBoot = some k₀ ∧
      Base.exec (Pending.next tinyMachine) ⟨k₀, fun _ ↦ none⟩ pendingSession = some s ∧
      (∀ c, c < maxNumProcesses → s.kernel.processes c = 1 →
        (s.kernel.pcbs (pcbAddr c)).parent ≠ pcbAddr c →
        s.born (pcbAddr c) = some (s.kernel.pcbs (s.kernel.pcbs (pcbAddr c)).parent).frame) ∧
      step tinyMachine s.kernel (tinyEvent 2 (.halt .syscall 0)) = some (.resumes f ret, k') ∧
      s.born s.kernel.current = some f := by
  obtain ⟨k₀, hboot, hrun⟩ := pending_call_kept tinyMachine tinyMachine_hasShell tinyBoot
  have hcheck : (boot tinyMachine tinyBoot).all fun k ↦ Base.checkSteps (Pending.next tinyMachine)
      (fun s e ↦ e.checkForest tinyMachine s.kernel) ⟨k, fun _ ↦ none⟩ pendingSession := by decide
  have hfits : (boot tinyMachine tinyBoot).all fun k ↦ Base.checkSteps (Pending.next tinyMachine)
      (fun s e ↦ e.checkFits tinyMachine s.kernel) ⟨k, fun _ ↦ none⟩ pendingSession := by decide
  have hchild : (boot tinyMachine tinyBoot).all fun k ↦
      (Base.exec (Pending.next tinyMachine) ⟨k, fun _ ↦ none⟩ pendingSession).all
        fun s ↦ decide ((tinyEvent 2 (.halt .syscall 0)).Valid s.kernel) &&
          (s.kernel.pcbs s.kernel.current).parent != s.kernel.current := by decide
  rw [hboot, Option.all_some] at hcheck hfits hchild
  obtain ⟨s, hexec, hkept, _, hhalt⟩ := hrun _ (forestSteps_of_check hcheck)
  rw [hexec, Option.all_some, Bool.and_eq_true, decide_eq_true_eq, bne_iff_ne] at hchild
  obtain ⟨f, ret, k', hstep, hborn, _⟩ := hhalt _ .syscall 0 hchild.1 rfl hchild.2
  exact ⟨k₀, s, f, ret, k', hboot, hexec,
    hkept (Base.AllSteps.of_checkSteps (fun _ _ ↦ Event.fits_of_checkFits) hfits), hstep, hborn⟩

/-- A shell in a shell ends. -/
def lostSession : List Event := [tinyEvent 0 tinyShell, tinyEvent 1 (.halt .syscall 0)]

/-- Then the first shell asks for the long program, and the page fault ends it.  It starts over.
Number 1 is in the table, with the PCB of the process that had it before; the frame of the call that
created that one is overwritten. -/
theorem pending_call_lost :
    longImage.WellFormed ∧ longMachine.HasShell ∧
      ∃ k₀ s s', boot longMachine tinyBoot = some k₀ ∧
        Base.AllSteps (Pending.next longMachine) (fun s e ↦ ForestStep longMachine s.kernel e)
          ⟨k₀, fun _ ↦ none⟩ lostSession ∧
        Base.exec (Pending.next longMachine) ⟨k₀, fun _ ↦ none⟩ lostSession = some s ∧
        ForestStep longMachine s.kernel (tinyEvent 0 longCall) ∧
        Pending.next longMachine s (tinyEvent 0 longCall) = some s' ∧
        s'.kernel.processes 1 = 1 ∧ (s'.kernel.pcbs (pcbAddr 1)).parent ≠ pcbAddr 1 ∧
        s'.born (pcbAddr 1) ≠ some (s'.kernel.pcbs (s'.kernel.pcbs (pcbAddr 1)).parent).frame := by
  obtain ⟨k₀, hboot, h₀⟩ := Pending.Inv.boot longMachine_hasShell tinyBoot
  have hcheck : (boot longMachine tinyBoot).all fun k ↦
      Base.checkSteps (Pending.next longMachine) (fun s e ↦ e.checkForest longMachine s.kernel)
        ⟨k, fun _ ↦ none⟩ lostSession := by decide
  -- the load is not run: what follows it is the `halt` of the page fault
  have hfault : (boot longMachine tinyBoot).all fun k ↦
      (Base.exec (Pending.next longMachine) ⟨k, fun _ ↦ none⟩ lostSession).all fun s ↦
        (tinyEvent 0 longCall).checkForest longMachine s.kernel && s.kernel.freeSlot == some 1 &&
          (halt longMachine (s.kernel.faulted longMachine 1 tinyLocals.mem)
            (tinyEvent 0 longCall).frame tinyLocals tinyLocals.ebx).any fun r ↦
              decide ((s.after (tinyEvent 0 longCall) r).kernel.processes 1 = 1) &&
                decide (¬ (s.after (tinyEvent 0 longCall) r).Kept 1) := by decide
  rw [hboot, Option.all_some] at hcheck hfault
  have hsteps := forestSteps_of_check hcheck
  obtain ⟨s, hexec, -⟩ := h₀.exec longMachine_hasShell hsteps
  rw [hexec, Option.all_some, Bool.and_eq_true, Bool.and_eq_true, beq_iff_eq,
    Option.any_eq_true] at hfault
  obtain ⟨⟨hforest, hfree⟩, ⟨o, k'⟩, hhalt, hlost⟩ := hfault
  rw [Bool.and_eq_true, decide_eq_true_eq, decide_eq_true_eq, Pending.Kept, Classical.not_imp]
    at hlost
  obtain ⟨hlive, hroot, hframe⟩ := hlost
  have hstep := ForestStep.of_checkForest hforest
  obtain ⟨q, hq, hload⟩ := Event.execute_of_not_fits (hstep.valid.word_lt rfl) rfl
    (longCall_not_fits 0 (by rw [hfree]; exact Option.some_ne_none 1))
  cases hq.symm.trans hfree
  have hnext : step longMachine s.kernel (tinyEvent 0 longCall) = some (o, k') := by
    have hcall : (tinyEvent 0 longCall).call = .execute longName := rfl
    simp only [step, hcall, hload]
    exact hhalt
  exact ⟨longImage_wellFormed, longMachine_hasShell, k₀, s, _, hboot, hsteps, hexec, hstep,
    Pending.next_of_step hnext, hlive, hroot, hframe⟩

/-! ## The value that the pending call returns -/

/-- The status of a process that ended: the low byte of `EBX` at the system call `halt`;
`none` for an exception. -/
def Event.status (e : Event) : Option Int :=
  match e.call with
  | .halt .syscall ebx => some (ebx % 256)
  | _ => none

theorem Event.status_eq_some {e : Event} {status : Int} :
    e.status = some status ↔ ∃ ebx, e.call = .halt .syscall ebx ∧ ebx % 256 = status := by
  rw [Event.status]
  split
  · rename_i ebx hc
    rw [Option.some.injEq]
    refine ⟨fun h ↦ ⟨ebx, hc, h⟩, ?_⟩
    rintro ⟨ebx', hc', h⟩
    cases hc.symm.trans hc'
    exact h
  · rename_i hne
    refine ⟨fun h ↦ (by cases h), ?_⟩
    rintro ⟨ebx, hc, _⟩
    exact absurd hc (hne ebx)

/-- The pending `execute` of the parent is resumed and returns what it should: the status,
or, after an exception, a value that is no status. -/
def Delivered (s : Pending) (e : Event) (f : Frame) (v : Int) : Prop :=
  s.born s.kernel.current = some f ∧
    match e.status with
    | some status => v = status
    | none => ¬ (0 ≤ v ∧ v < 256)

/-- The value 0 is the status 0, and it is a status. -/
theorem delivered_zero_iff {s : Pending} {e : Event} {f : Frame} :
    Delivered s e f 0 ↔ s.born s.kernel.current = some f ∧
      ∃ ebx, e.call = .halt .syscall ebx ∧ ebx % 256 = 0 := by
  rw [Delivered, ← Event.status_eq_some]
  refine and_congr_right fun _ ↦ ?_
  cases e.status with
  | none => exact ⟨fun h ↦ absurd ⟨Int.le_refl 0, by decide⟩ h, fun h ↦ (by cases h)⟩
  | some status =>
      have hsome : some status = some 0 ↔ status = 0 := Option.some_inj
      rw [hsome]
      exact eq_comm

/-- **When the exit status is delivered.**  In every state of every run of valid events, a `halt` of
a process that is not a root resumes a pending call.  Whatever step resumes one, the right value is
delivered if and only if the process ended with the system call `halt` and the status 0, and the PCB
of its parent still holds the frame of the call; which it does if no terminal has failed to open. -/
theorem status_delivered_iff (M : Machine) (hM : M.HasShell) (b : BootState) :
    ∃ k₀, boot M b = some k₀ ∧
      ∀ es, Base.AllSteps (Pending.next M) (fun s e ↦ e.Valid s.kernel) ⟨k₀, fun _ ↦ none⟩ es →
        ∃ s, Base.exec (Pending.next M) ⟨k₀, fun _ ↦ none⟩ es = some s ∧
          ∀ e, e.Valid s.kernel →
            (∀ ending ebx, e.call = .halt ending ebx →
              (s.kernel.pcbs s.kernel.current).parent ≠ s.kernel.current →
              ∃ f v k', step M s.kernel e = some (.resumes f (some v), k')) ∧
            ∀ f v k', step M s.kernel e = some (.resumes f (some v), k') →
              (Delivered s e f v ↔
                s.born s.kernel.current =
                    some (s.kernel.pcbs (s.kernel.pcbs s.kernel.current).parent).frame ∧
                  ∃ ebx, e.call = .halt .syscall ebx ∧ ebx % 256 = 0) ∧
              (Base.AllSteps (Pending.next M) (fun s e ↦ ForestStep M s.kernel e)
                  ⟨k₀, fun _ ↦ none⟩ es →
                (Delivered s e f v ↔ ∃ ebx, e.call = .halt .syscall ebx ∧ ebx % 256 = 0)) := by
  obtain ⟨k₀, hboot, h₀⟩ := Designated.boot hM b
  obtain ⟨k₀', hboot', hinv⟩ := Pending.Inv.boot hM b
  cases hboot.symm.trans hboot'
  refine ⟨k₀, hboot, fun es hes ↦ ?_⟩
  obtain ⟨s, hexec, vid, hs⟩ := Pending.exec_designated (s := ⟨k₀, fun _ ↦ none⟩) hM h₀ hes
  refine ⟨s, hexec, fun e he ↦ ⟨fun ending ebx hc hroot ↦ ?_, fun f v k' hstep ↦ ?_⟩⟩
  · obtain ⟨k', hstep, _⟩ := step_halt_of_not_root (M := M) he hc hroot
    exact ⟨_, _, k', hstep⟩
  · obtain ⟨o, k'', hstep', heff⟩ := hs.step_effect hM he
    cases hstep.symm.trans hstep'
    obtain ⟨hroot, rfl, rfl⟩ := heff.of_resumes_some rfl
    have hiff := delivered_zero_iff (s := s) (e := e)
      (f := (s.kernel.pcbs (s.kernel.pcbs s.kernel.current).parent).frame)
    refine ⟨hiff, fun hforest ↦ hiff.trans (and_iff_right ?_)⟩
    obtain ⟨s', hexec', d, hs'⟩ := hinv.exec hM hforest
    cases hexec.symm.trans hexec'
    exact hs'.born_current hroot

/-- A shell ends with the status 0. -/
theorem status_delivered_zero :
    ∃ k₀ s f v k', boot tinyMachine tinyBoot = some k₀ ∧
      Base.exec (Pending.next tinyMachine) ⟨k₀, fun _ ↦ none⟩ [tinyEvent 0 tinyShell] = some s ∧
      step tinyMachine s.kernel (tinyEvent 1 (.halt .syscall 0)) =
        some (.resumes f (some v), k') ∧
      Delivered s (tinyEvent 1 (.halt .syscall 0)) f v := by
  obtain ⟨k₀, hboot, hrun⟩ := status_delivered_iff tinyMachine tinyMachine_hasShell tinyBoot
  have hcheck : (boot tinyMachine tinyBoot).all fun k ↦ Base.checkSteps (Pending.next tinyMachine)
      (fun s e ↦ e.checkForest tinyMachine s.kernel) ⟨k, fun _ ↦ none⟩ [tinyEvent 0 tinyShell] := by
    decide
  have hchild : (boot tinyMachine tinyBoot).all fun k ↦
      (Base.exec (Pending.next tinyMachine) ⟨k, fun _ ↦ none⟩ [tinyEvent 0 tinyShell]).all
        fun s ↦ decide ((tinyEvent 1 (.halt .syscall 0)).Valid s.kernel) &&
          (s.kernel.pcbs s.kernel.current).parent != s.kernel.current := by decide
  rw [hboot, Option.all_some] at hcheck hchild
  have hforest := forestSteps_of_check hcheck
  obtain ⟨s, hexec, hstatus⟩ := hrun _ (hforest.mono fun _ _ ↦ ForestStep.valid)
  rw [hexec, Option.all_some, Bool.and_eq_true, decide_eq_true_eq, bne_iff_ne] at hchild
  obtain ⟨hresumes, hiff⟩ := hstatus _ hchild.1
  obtain ⟨f, v, k', hstep⟩ := hresumes .syscall 0 rfl hchild.2
  exact ⟨k₀, s, f, v, k', hboot, hexec, hstep, ((hiff f v k' hstep).2 hforest).mpr ⟨0, rfl, rfl⟩⟩

/-- A shell that a shell started ends with the status 1, or by an exception: the pending call
returns 0 both times. -/
theorem status_not_delivered :
    ∃ k₀ s f k₁ k₂, boot tinyMachine tinyBoot = some k₀ ∧
      Base.exec (Pending.next tinyMachine) ⟨k₀, fun _ ↦ none⟩ [tinyEvent 0 tinyShell] = some s ∧
      (tinyEvent 1 (.halt .syscall 1)).Valid s.kernel ∧
      (s.kernel.pcbs s.kernel.current).parent ≠ s.kernel.current ∧
      step tinyMachine s.kernel (tinyEvent 1 (.halt .syscall 1)) =
        some (.resumes f (some 0), k₁) ∧
      ¬ Delivered s (tinyEvent 1 (.halt .syscall 1)) f 0 ∧
      step tinyMachine s.kernel (tinyEvent 1 (.halt .exception 1)) =
        some (.resumes f (some 0), k₂) ∧
      ¬ Delivered s (tinyEvent 1 (.halt .exception 1)) f 0 := by
  refine ⟨_, _, _, _, _, rfl, rfl, by decide, by decide, rfl, fun h ↦ ?_, rfl, fun h ↦ ?_⟩
  · have hstatus : (0 : Int) = 1 := h.2
    cases hstatus
  · have hstatus : ¬ (0 ≤ (0 : Int) ∧ (0 : Int) < 256) := h.2
    exact hstatus (by decide)

end Illinix
