import Illinix.Base.Chain
import Illinix.Files.Stream
import Illinix.Process.Designation
import Illinix.Process.Terminals

/-!
# The process forest

`Represents k d` relates the kernel to the stacks of `Terminals`: the process table, the
parent pointers, the terminal of each process, the top of each terminal and the process
that runs all come from `d`.  Every step that does not fail to open a terminal keeps the
relation, with a `push`, a `pop`, a restart or a change of focus on the side of `d`.

The five variables are updated in different places, and the parent of a new process is
read off the stack pointer.  What holds them together is that the process that runs is
always the top of the terminal in front.

One thing comes between the table and the terminals.  `execute` takes a process number
before it loads the program, and a program that is too long for the user page makes it
fault there: the number is lost.  `process_forest_iff` says that the processes are a forest
exactly after the runs in which no such program is loaded.
-/

namespace Illinix

/-- The parent pointers, as a function on the addresses of PCBs. -/
def Kernel.parentOf (k : Kernel) (a : Nat) : Nat := (k.pcbs a).parent

/-- The PCBs and the tops of the terminals are those of `d`. -/
structure Stacked (k : Kernel) (d : Terminals) : Prop where
  unopened : ∀ t, t < maxTty → d.stack t = [] → k.ttyTopPid t = ttyUnopened
  top : ∀ t p l, d.stack t = p :: l → k.ttyTopPid t = p
  chain : ∀ t p l, d.stack t = p :: l →
    Base.Chain k.parentOf (pcbAddr p) ((p :: l).map pcbAddr)
  num : ∀ t p, p ∈ d.stack t → (k.pcbs (pcbAddr p)).processNum = p
  tty : ∀ t p, p ∈ d.stack t → (k.pcbs (pcbAddr p)).tty = t

/-- The kernel is in the state that `d` describes. -/
structure Represents (k : Kernel) (d : Terminals) : Prop where
  valid : d.Valid
  stacked : Stacked k d
  used : ∀ p, p < maxNumProcesses → (d.Used p → k.processes p = 1) ∧
    (¬ d.Used p → k.processes p = 0)
  active : k.activeTty = d.active
  flag : k.nextOneIsRootShell = false
  current : k.current = pcbAddr (k.ttyTopPid k.activeTty)

namespace Stacked

variable {k k' : Kernel} {d : Terminals}

/-- Replacing one stack, in a kernel that agrees on the other ones. -/
theorem set (h : Stacked k d) {t p : Nat} {l : List Nat}
    (hlinks : ∀ t' x, t' ≠ t → x ∈ d.stack t' →
      Pcb.SameLinks (k.pcbs (pcbAddr x)) (k'.pcbs (pcbAddr x)))
    (htops : ∀ t', t' ≠ t → k'.ttyTopPid t' = k.ttyTopPid t')
    (htop : k'.ttyTopPid t = p)
    (hchain : Base.Chain k'.parentOf (pcbAddr p) ((p :: l).map pcbAddr))
    (hnum : ∀ x ∈ p :: l, (k'.pcbs (pcbAddr x)).processNum = x)
    (htty : ∀ x ∈ p :: l, (k'.pcbs (pcbAddr x)).tty = t) : Stacked k' (d.set t (p :: l)) := by
  constructor
  case unopened =>
    intro t' ht' hnil
    by_cases htt : t' = t
    · subst htt
      rw [Terminals.set_stack_self] at hnil
      cases hnil
    · rw [Terminals.set_stack_of_ne _ htt] at hnil
      rw [htops t' htt, h.unopened t' ht' hnil]
  case top =>
    intro t' p' l' heq
    by_cases htt : t' = t
    · subst htt
      rw [Terminals.set_stack_self] at heq
      cases heq
      exact htop
    · rw [Terminals.set_stack_of_ne _ htt] at heq
      rw [htops t' htt, h.top t' p' l' heq]
  case chain =>
    intro t' p' l' heq
    by_cases htt : t' = t
    · subst htt
      rw [Terminals.set_stack_self] at heq
      cases heq
      exact hchain
    · rw [Terminals.set_stack_of_ne _ htt] at heq
      refine (h.chain t' p' l' heq).congr fun a ha ↦ ?_
      obtain ⟨x, hx, rfl⟩ := List.mem_map.mp ha
      exact (hlinks t' x htt (by rwa [heq])).parent
  case num =>
    intro t' x hx
    by_cases htt : t' = t
    · subst htt
      rw [Terminals.set_stack_self] at hx
      exact hnum x hx
    · rw [Terminals.set_stack_of_ne _ htt] at hx
      rw [(hlinks t' x htt hx).processNum, h.num t' x hx]
  case tty =>
    intro t' x hx
    by_cases htt : t' = t
    · subst htt
      rw [Terminals.set_stack_self] at hx
      exact htty x hx
    · rw [Terminals.set_stack_of_ne _ htt] at hx
      rw [(hlinks t' x htt hx).tty, h.tty t' x hx]

theorem congr (h : Stacked k d) (hlinks : ∀ a, Pcb.SameLinks (k.pcbs a) (k'.pcbs a))
    (htop : k'.ttyTopPid = k.ttyTopPid) : Stacked k' d where
  unopened t ht hnil := by rw [htop, h.unopened t ht hnil]
  top t p l heq := by rw [htop, h.top t p l heq]
  chain t p l heq := (h.chain t p l heq).congr fun a _ ↦ (hlinks a).parent
  num t p hp := by rw [(hlinks _).processNum, h.num t p hp]
  tty t p hp := by rw [(hlinks _).tty, h.tty t p hp]

end Stacked

namespace Represents

variable {M : Machine} {k k' : Kernel} {d : Terminals}

theorem congr (h : Represents k d) (hlinks : ∀ a, Pcb.SameLinks (k.pcbs a) (k'.pcbs a))
    (htop : k'.ttyTopPid = k.ttyTopPid) (hproc : k'.processes = k.processes)
    (hactive : k'.activeTty = k.activeTty)
    (hflag : k'.nextOneIsRootShell = k.nextOneIsRootShell) (hcur : k'.current = k.current) :
    Represents k' d where
  valid := h.valid
  stacked := h.stacked.congr hlinks htop
  used p hp := by rw [hproc]; exact h.used p hp
  active := hactive.trans h.active
  flag := hflag.trans h.flag
  current := by rw [hcur, hactive, htop, h.current]

/-- The process in front, on top of its terminal. -/
theorem exists_running (h : Represents k d) :
    ∃ p l, d.stack d.active = p :: l ∧ k.current = pcbAddr p ∧ p < maxNumProcesses := by
  obtain ⟨p, l, hpl⟩ := List.exists_cons_of_ne_nil h.valid.active_ne
  refine ⟨p, l, hpl, ?_, h.valid.lt _ p (by rw [hpl]; exact List.mem_cons_self)⟩
  rw [h.current, h.active, h.stacked.top _ p l hpl]

/-- The number that `execute` takes is in use nowhere. -/
theorem not_used_of_freeSlot (h : Represents k d) {q : Nat} (hq : k.freeSlot = some q) :
    q < maxNumProcesses ∧ ¬ d.Used q := by
  obtain ⟨hlt, hzero, _⟩ := Kernel.freeSlot_eq_some.mp hq
  refine ⟨hlt, fun hused ↦ ?_⟩
  rw [(h.used q hlt).1 hused] at hzero
  cases hzero

/-- The table of process numbers with one taken. -/
theorem used_taken {processes : Nat → Nat} {used : Prop} {q x : Nat}
    (h : x ≠ q → (used → processes x = 1) ∧ (¬ used → processes x = 0)) :
    (x = q ∨ used → Function.update processes q 1 x = 1) ∧
      (¬ (x = q ∨ used) → Function.update processes q 1 x = 0) := by
  by_cases hxq : x = q
  · subst hxq
    exact ⟨fun _ ↦ Function.update_self .., fun hn ↦ absurd (Or.inl rfl) hn⟩
  · rw [Function.update_of_ne hxq]
    obtain ⟨h₁, h₀⟩ := h hxq
    exact ⟨fun hu ↦ h₁ (hu.resolve_left hxq), fun hn ↦ h₀ fun hu ↦ hn (Or.inr hu)⟩

/-- The links of the processes on the terminals survive a launch in a free slot. -/
theorem launch_sameLinks (h : Represents k d) {q t x : Nat} (hq : q < maxNumProcesses)
    (hx : x ∈ d.stack t) (hne : x ≠ q) {k₁ : Kernel} (hk₁ : k₁.pcbs = k.pcbs) (f : Frame)
    (l : Locals) (args bytes : List UInt8) :
    Pcb.SameLinks (k.pcbs (pcbAddr x)) ((k₁.launch M q f l args bytes).pcbs (pcbAddr x)) := by
  rw [← hk₁]
  exact Kernel.launch_sameLinks M k₁ q f l args bytes fun heq ↦
    hne (pcbAddr_inj (h.valid.lt t x hx) hq heq)

/-- Process 0 is in use, so a new process is its own parent only if a shell is wanted. -/
theorem not_isRoot (h : Represents k d) {q : Nat} (hq : k.freeSlot = some q) : ¬ k.IsRoot q := by
  rintro (rfl | hflag)
  · exact (h.not_used_of_freeSlot hq).2 h.valid.zero_used
  · rw [h.flag] at hflag
    cases hflag

/-- **A program starts** on top of the process that asked for it. -/
theorem launch_push (h : Represents k d) {q : Nat} (hq : k.freeSlot = some q) {f : Frame}
    (hf : getPcb f.esp = k.current) (l : Locals) (args bytes : List UInt8) :
    Represents (k.launch M q f l args bytes) (d.push q) := by
  obtain ⟨hlt, hun⟩ := h.not_used_of_freeSlot hq
  obtain ⟨p, rest, hstack, hcur, _⟩ := h.exists_running
  have hne : ∀ t x, x ∈ d.stack t → x ≠ q := by
    rintro t x hx rfl
    exact hun (Or.inl ⟨t, hx⟩)
  have hlinks : ∀ t x, x ∈ d.stack t → Pcb.SameLinks (k.pcbs (pcbAddr x))
      ((k.launch M q f l args bytes).pcbs (pcbAddr x)) := fun t x hx ↦
    h.launch_sameLinks hlt hx (hne t x hx) rfl f l args bytes
  have hself : (k.launch M q f l args bytes).pcbs (pcbAddr q) = k.newPcb q f l args :=
    Kernel.launch_pcbs_self ..
  have hparent : (k.newPcb q f l args).parent = pcbAddr p :=
    (Kernel.newPcb_parent_of_not_isRoot (h.not_isRoot hq)).trans (hf.trans hcur)
  refine ⟨h.valid.push hlt hun, ?_, ?_, h.active, Kernel.launch_flag .., ?_⟩
  · refine h.stacked.set (fun t' x _ hx ↦ hlinks t' x hx) ?_ ?_ ?_ ?_ ?_
    · intro t' htt
      rw [Kernel.launch_ttyTopPid, h.active, Function.update_of_ne htt]
    · rw [Kernel.launch_ttyTopPid, h.active, Function.update_self]
    · have hchain := h.stacked.chain d.active p rest hstack
      rw [hstack, List.map_cons]
      refine hchain.push ?_ ?_ ?_
      · intro hmem
        obtain ⟨x, hx, heq⟩ := List.mem_map.mp hmem
        rw [← hstack] at hx
        exact hne _ x hx (pcbAddr_inj (h.valid.lt _ x hx) hlt heq)
      · rw [Kernel.parentOf, hself, hparent]
      · intro a ha
        obtain ⟨x, hx, rfl⟩ := List.mem_map.mp ha
        rw [← hstack] at hx
        exact (hlinks _ x hx).parent
    · intro x hx
      rcases List.mem_cons.mp hx with rfl | hx
      · rw [hself]
        rfl
      · rw [(hlinks _ x hx).processNum, h.stacked.num _ x hx]
    · intro x hx
      rcases List.mem_cons.mp hx with rfl | hx
      · rw [hself]
        exact h.active
      · rw [(hlinks _ x hx).tty, h.stacked.tty _ x hx]
  · intro x hx
    rw [Kernel.launch_processes]
    rw [Terminals.used_push]
    exact used_taken fun _ ↦ h.used x hx
  · rw [Kernel.launch_current, Kernel.launch_ttyTopPid, Kernel.launch_activeTty,
      Function.update_self]

/-- **A shell starts** as the only process of a terminal.  The kernel `k₁` that starts it
has the PCBs and tops of `k`, and its process table has the processes of the other
terminals. -/
theorem launch_single (h : Represents k d) (k₁ : Kernel) {q : Nat} (hpcbs : k₁.pcbs = k.pcbs)
    (htops : k₁.ttyTopPid = k.ttyTopPid) (hflag : k₁.nextOneIsRootShell = true)
    (ht : k₁.activeTty < maxTty) (hlt : q < maxNumProcesses)
    (hfresh : q ∈ d.stack k₁.activeTty ∨ ¬ d.Used q)
    (hzero : (d.stack k₁.activeTty).getLast? = some 0 → q = 0)
    (hproc : ∀ p, p < maxNumProcesses → p ≠ q →
      ((∃ t', t' ≠ k₁.activeTty ∧ p ∈ d.stack t') ∨ d.lost p → k₁.processes p = 1) ∧
      (¬ ((∃ t', t' ≠ k₁.activeTty ∧ p ∈ d.stack t') ∨ d.lost p) → k₁.processes p = 0))
    (f : Frame) (l : Locals) (args bytes : List UInt8) :
    Represents (k₁.launch M q f l args bytes) (d.set k₁.activeTty [q]) := by
  have hself : (k₁.launch M q f l args bytes).pcbs (pcbAddr q) = k₁.newPcb q f l args :=
    Kernel.launch_pcbs_self ..
  have hroot : (k₁.newPcb q f l args).parent = pcbAddr q :=
    Kernel.newPcb_parent_of_isRoot (Or.inr hflag)
  refine ⟨h.valid.setSingle ht hlt hfresh hzero, ?_, ?_, rfl, Kernel.launch_flag .., ?_⟩
  · refine h.stacked.set (fun t' x htt hx ↦ ?_) ?_ ?_ ?_ ?_ ?_
    · refine h.launch_sameLinks hlt hx ?_ hpcbs f l args bytes
      rintro rfl
      rcases hfresh with hmem | hun
      · exact htt (h.valid.disjoint _ _ x hx hmem)
      · exact hun (Or.inl ⟨t', hx⟩)
    · intro t' htt
      rw [Kernel.launch_ttyTopPid, Function.update_of_ne htt, htops]
    · rw [Kernel.launch_ttyTopPid, Function.update_self]
    · refine .root ?_
      rw [Kernel.parentOf, hself, hroot]
    · intro x hx
      rw [List.mem_singleton.mp hx, hself]
      rfl
    · intro x hx
      rw [List.mem_singleton.mp hx, hself]
      rfl
  · intro x hx
    rw [Kernel.launch_processes, Terminals.used_set, List.mem_singleton]
    exact used_taken (hproc x hx)
  · rw [Kernel.launch_current, Kernel.launch_ttyTopPid, Kernel.launch_activeTty,
      Function.update_self]

/-- A terminal that the kernel has as unopened holds nothing. -/
theorem stack_eq_nil (h : Represents k d) {t : Nat} (hun : k.ttyTopPid t = ttyUnopened) :
    d.stack t = [] := by
  cases hstack : d.stack t with
  | nil => rfl
  | cons p l =>
      have hlt := h.valid.lt t p (by rw [hstack]; exact List.mem_cons_self)
      rw [h.stacked.top t p l hstack] at hun
      simp only [maxNumProcesses, ttyUnopened] at hlt hun
      omega

theorem stack_ne_nil (h : Represents k d) {t : Nat} (ht : t < maxTty)
    (hopen : k.ttyTopPid t ≠ ttyUnopened) : d.stack t ≠ [] :=
  fun hnil ↦ hopen (h.stacked.unopened t ht hnil)

/-- On an opened terminal, the process on record is on top. -/
theorem exists_stack (h : Represents k d) {t : Nat} (ht : t < maxTty)
    (hopen : k.ttyTopPid t ≠ ttyUnopened) : ∃ l, d.stack t = k.ttyTopPid t :: l := by
  obtain ⟨p, l, hpl⟩ := List.exists_cons_of_ne_nil (h.stack_ne_nil ht hopen)
  exact ⟨l, by rw [h.stacked.top t p l hpl, hpl]⟩

/-- **A terminal is opened.** -/
theorem launch_open (h : Represents k d) {tty q : Nat} (ht : tty < maxTty)
    (hun : k.ttyTopPid tty = ttyUnopened) (hq : k.freeSlot = some q) (f : Frame) (l : Locals)
    (args bytes : List UInt8) :
    Represents ((k.wantsShell tty).launch M q f l args bytes) (d.set tty [q]) := by
  obtain ⟨hlt, hfree⟩ := h.not_used_of_freeSlot hq
  have hnil := h.stack_eq_nil hun
  refine h.launch_single (k.wantsShell tty) rfl rfl rfl ht hlt (Or.inr hfree) ?_ ?_ f l args bytes
  · intro hlast
    rw [hnil] at hlast
    cases hlast
  · intro p hp _
    have hused : (∃ t', t' ≠ tty ∧ p ∈ d.stack t') ∨ d.lost p ↔ d.Used p := by
      refine or_congr_left ⟨fun ⟨t', _, hx⟩ ↦ ⟨t', hx⟩, fun ⟨t', hx⟩ ↦ ⟨t', ?_, hx⟩⟩
      rintro rfl
      rw [hnil] at hx
      cases hx
    rw [hused]
    exact h.used p hp

theorem closed (h : Represents k d) (ebx : Int) : Represents (k.closed ebx) d :=
  h.congr (k.closeFiles_sameLinks _ ebx) rfl rfl rfl rfl rfl

/-- The table of process numbers with one given back. -/
theorem used_retired (h : Represents k d) (p : Nat) {x : Nat} (hx : x < maxNumProcesses) :
    (d.Used x ∧ x ≠ p → Function.update k.processes p 0 x = 1) ∧
      (¬ (d.Used x ∧ x ≠ p) → Function.update k.processes p 0 x = 0) := by
  by_cases hxp : x = p
  · subst hxp
    rw [Function.update_self]
    exact ⟨fun hu ↦ absurd rfl hu.2, fun _ ↦ rfl⟩
  · rw [Function.update_of_ne hxp]
    exact ⟨fun hu ↦ (h.used x hx).1 hu.1, fun hn ↦ (h.used x hx).2 fun hu ↦ hn ⟨hu, hxp⟩⟩

/-- **A root starts over** on its terminal. -/
theorem launch_restart (h : Represents k d) {ebx : Int} {q : Nat}
    (hroot : (k.pcbs k.current).parent = k.current) (hq : (k.retired ebx).freeSlot = some q)
    (f : Frame) (l : Locals) (args bytes : List UInt8) :
    Represents ((k.retired ebx).launch M q f l args bytes) (d.set d.active [q]) := by
  have hclosed := h.closed ebx
  obtain ⟨p, rest, hstack, hcur, hplt⟩ := h.exists_running
  obtain ⟨hlt, hzero, hlow⟩ := Kernel.freeSlot_eq_some.mp hq
  have hp : p ∈ d.stack d.active := by rw [hstack]; exact List.mem_cons_self
  have hnum : ((k.closed ebx).pcbs k.current).processNum = p := by
    rw [hcur]
    exact hclosed.stacked.num _ p hp
  have hproc : (k.retired ebx).processes = Function.update k.processes p 0 :=
    Kernel.retire_processes hnum
  have hrest : rest = [] := by
    have hchain := h.stacked.chain _ p rest hstack
    have hsingle := hchain.eq_singleton_of_root (by rw [Kernel.parentOf, ← hcur, hroot])
    simpa using hsingle
  have hactive : (k.retired ebx).activeTty = d.active := h.active
  rw [hproc] at hzero hlow
  rw [← hactive]
  refine hclosed.launch_single (k.retired ebx) rfl rfl rfl ?_ hlt ?_ ?_ ?_ f l args bytes
  · rw [hactive]
    exact h.valid.active_lt
  · by_cases hqp : q = p
    · rw [hactive, hqp]
      exact Or.inl hp
    · rw [Function.update_of_ne hqp] at hzero
      refine Or.inr fun hused ↦ ?_
      rw [(h.used q hlt).1 hused] at hzero
      cases hzero
  · -- the number 0 is given back by the root that holds it, and is then the first free one
    intro hlast
    rw [hactive, hstack, hrest, List.getLast?_singleton] at hlast
    cases hlast
    by_contra hq0
    exact hlow 0 (Nat.pos_of_ne_zero hq0) (Function.update_self ..)
  · intro x hx hxq
    rw [hactive, hproc, h.valid.used_of_single (hrest ▸ hstack)]
    exact h.used_retired p hx

/-- Below a process that is not a root is its parent. -/
theorem exists_below (h : Represents k d) (hroot : (k.pcbs k.current).parent ≠ k.current) :
    ∃ p p' l, d.stack d.active = p :: p' :: l ∧ k.current = pcbAddr p ∧
      (k.pcbs k.current).parent = pcbAddr p' := by
  obtain ⟨p, rest, hstack, hcur, _⟩ := h.exists_running
  rw [hcur] at hroot ⊢
  obtain ⟨tail, htail, hpop⟩ := (h.stacked.chain _ p rest hstack).pop hroot
  rw [List.map_cons, List.cons.injEq] at htail
  obtain ⟨_, htop⟩ := hpop.exists_tail
  rw [← htail.2] at htop
  cases rest with
  | nil => cases htop
  | cons p' l =>
      rw [List.map_cons, List.cons.injEq] at htop
      exact ⟨p, p', l, hstack, rfl, htop.1.symm⟩

/-- **A program ends** and gives way to the process below it. -/
theorem returnToParent_pop (h : Represents k d) {cur : Nat} (hcur : k.current = cur)
    (hroot : (k.pcbs k.current).parent ≠ k.current) :
    Represents (k.returnToParent M cur).2 d.pop := by
  subst hcur
  obtain ⟨p, p', l, hstack, hcur, hparent⟩ := h.exists_below hroot
  have hp : p ∈ d.stack d.active := by rw [hstack]; exact List.mem_cons_self
  have hmem : ∀ x ∈ p' :: l, x ∈ d.stack d.active := fun x hx ↦ by
    rw [hstack]
    exact List.mem_cons_of_mem _ hx
  have hnum : (k.pcbs (k.pcbs k.current).parent).processNum = p' := by
    rw [hparent]
    exact h.stacked.num _ p' (hmem p' List.mem_cons_self)
  have htty : (k.pcbs k.current).tty = d.active := by
    rw [hcur]
    exact h.stacked.tty _ p hp
  have hpnum : (k.pcbs k.current).processNum = p := by
    rw [hcur]
    exact h.stacked.num _ p hp
  have htop : (k.returnToParent M k.current).2.ttyTopPid =
      Function.update k.ttyTopPid d.active p' := by
    rw [Kernel.returnToParent_kernel M hpnum hnum, htty]
  have hproc : (k.returnToParent M k.current).2.processes =
      Function.update (Function.update k.processes p 0) p' 1 :=
    Kernel.returnToParent_processes M hpnum hnum
  have hpop : d.pop = d.set d.active (p' :: l) := by
    rw [Terminals.pop, hstack]
    rfl
  refine ⟨h.valid.pop hstack, ?_, ?_, h.active, h.flag, ?_⟩
  · rw [hpop]
    refine h.stacked.set (fun _ _ _ _ ↦ .refl _) ?_ ?_ ?_ ?_ ?_
    · intro t' htt
      rw [htop, Function.update_of_ne htt]
    · rw [htop, Function.update_self]
    · obtain ⟨tail, htail, hchain⟩ := (h.stacked.chain _ p _ hstack).pop (by
        rw [← hcur]
        exact hroot)
      rw [List.map_cons, List.cons.injEq] at htail
      rw [htail.2, ← hparent, hcur]
      exact hchain
    · exact fun x hx ↦ h.stacked.num d.active x (hmem x hx)
    · exact fun x hx ↦ h.stacked.tty d.active x (hmem x hx)
  · intro x hx
    rw [h.valid.used_pop hstack, hproc]
    by_cases hxp' : x = p'
    · subst hxp'
      rw [Function.update_self]
      refine ⟨fun _ ↦ rfl, fun hn ↦ absurd ⟨Or.inl ⟨_, hmem x List.mem_cons_self⟩, ?_⟩ hn⟩
      have hnodup := h.valid.nodup d.active
      rw [hstack, List.nodup_cons, List.mem_cons, not_or] at hnodup
      exact Ne.symm hnodup.1.1
    · rw [Function.update_of_ne hxp']
      exact h.used_retired p hx
  · have hactive : (k.returnToParent M k.current).2.activeTty = d.active := h.active
    rw [htop, hactive, Function.update_self]
    exact hparent

theorem focus (h : Represents k d) {tty : Nat} (ht : tty < maxTty)
    (hopen : k.ttyTopPid tty ≠ ttyUnopened) :
    Represents ((k.atTty tty).resume M (k.ttyTopPid tty) (pcbAddr (k.ttyTopPid tty)))
      (d.focus tty) where
  valid := h.valid.focus (h.stack_ne_nil ht hopen)
  stacked := ⟨h.stacked.unopened, h.stacked.top, h.stacked.chain, h.stacked.num, h.stacked.tty⟩
  used := h.used
  active := rfl
  flag := h.flag
  current := rfl

theorem faulted (h : Represents k d) {q : Nat} (hq : k.freeSlot = some q) (mem : Nat → UInt8) :
    Represents (k.faulted M q mem) (d.lose q) where
  valid := h.valid.lose (h.not_used_of_freeSlot hq).1 (h.not_used_of_freeSlot hq).2
  stacked := ⟨h.stacked.unopened, h.stacked.top, h.stacked.chain, h.stacked.num, h.stacked.tty⟩
  used p hp := by
    have hused : (d.lose q).Used p ↔ p = q ∨ d.Used p := by
      rw [or_comm, Terminals.Used, Terminals.Used, or_assoc]
      rfl
    have hproc : (k.faulted M q mem).processes = Function.update k.processes q 1 := rfl
    rw [hused, hproc]
    exact used_taken fun _ ↦ h.used p hp
  active := h.active
  flag := h.flag
  current := h.current

/-- Ending the running process. -/
theorem halt (h : Represents k d) {f : Frame} {l : Locals} {ebx : Int} {o : Outcome}
    (heff : HaltEffect M k f l ebx o k') : ∃ d', Represents k' d' ∧ d'.lost = d.lost := by
  cases heff with
  | restarts hroot hq => exact ⟨_, h.launch_restart hroot hq f l _ _, rfl⟩
  | returns hroot =>
      have hparent : ((k.closed ebx).pcbs k.current).parent ≠ k.current := by
        rw [(k.closeFiles_sameLinks _ ebx _).parent]
        exact hroot
      exact ⟨_, (h.closed ebx).returnToParent_pop rfl hparent, rfl⟩

/-- The process in front is the top of its terminal, so a tick stays with it. -/
theorem tick_stays (h : Represents k d) :
    k.ttyTopPid (k.pcbs k.current).tty = (k.pcbs k.current).processNum := by
  obtain ⟨p, l, hstack, hcur, _⟩ := h.exists_running
  have hp : p ∈ d.stack d.active := by rw [hstack]; exact List.mem_cons_self
  rw [hcur, h.stacked.tty _ p hp, h.stacked.num _ p hp, h.stacked.top _ p l hstack]

end Represents

theorem Represents.running {k : Kernel} {d : Terminals} (h : Represents k d) : k.Running := by
  obtain ⟨p, l, hstack, hcur, hlt⟩ := h.exists_running
  have hp : p ∈ d.stack d.active := by rw [hstack]; exact List.mem_cons_self
  have hnum : (k.pcbs k.current).processNum = p := by rw [hcur, h.stacked.num _ p hp]
  refine ⟨by rwa [hnum], ?_, by rwa [h.tick_stays, hnum]⟩
  rw [hcur, h.stacked.tty _ p hp]
  exact h.valid.active_lt

/-- The event does not ask for an unopened terminal while all process numbers are
taken. -/
def Event.CanOpen (k : Kernel) (e : Event) : Prop :=
  ∀ tty, e.call = .switchToTty tty → k.ttyTopPid tty = ttyUnopened → k.freeSlot ≠ none

/-- The event is not an `execute` that gets as far as loading a program which is too long for the
user page. -/
def Event.Fits (M : Machine) (k : Kernel) (e : Event) : Prop :=
  ∀ command dentry, e.call = .execute command → k.freeSlot ≠ none →
    checkValidity M.img (Bytes.ofList (firstWord command)) e.locals.exeCheck = some dentry →
      M.img.FitsPage dentry.inodeNum

namespace Event

variable {M : Machine} {k : Kernel} {e : Event} {command : Bytes}

theorem fits_of_ne (h : ∀ command, e.call ≠ .execute command) : e.Fits M k :=
  fun command _ hc ↦ absurd hc (h command)

/-- A program that is too long faults while it is loaded. -/
theorem execute_of_not_fits (hword : (firstWord command).length < fileNameSize)
    (hc : e.call = .execute command) (hno : ¬ e.Fits M k) :
    ∃ q, k.freeSlot = some q ∧
      execute M k e.frame e.locals command = some (.fault (k.faulted M q e.locals.mem)) := by
  simp only [Fits, not_forall] at hno
  obtain ⟨command', dentry, hc', hfree, hvalid, hfits⟩ := hno
  cases hc.symm.trans hc'
  obtain ⟨q, hq⟩ := Option.ne_none_iff_exists'.mp hfree
  have hlen : ¬ (parseArgs command).1.length ≥ fileNameSize := Nat.not_le.mpr hword
  have hvalid' : checkValidity M.img (Bytes.ofList (parseArgs command).1) e.locals.exeCheck =
      some dentry := hvalid
  have hload : loadFile M.img dentry = none := loadFile_eq_none_iff.mpr hfits
  refine ⟨q, hq, ?_⟩
  simp only [execute, if_neg hlen, hq, hvalid', hload]

theorem not_fits_of_fault (hc : e.call = .execute command) {k' : Kernel}
    (hex : execute M k e.frame e.locals command = some (.fault k')) : ¬ e.Fits M k := by
  intro hfits
  simp only [execute] at hex
  split at hex
  · cases hex
  · split at hex
    · cases hex
    · rename_i q hq
      split at hex
      · cases hex
      · rename_i dentry hvalid
        split at hex
        · rename_i hload
          refine loadFile_eq_none_iff.mp hload (hfits command dentry hc ?_ hvalid)
          rw [hq]
          exact Option.some_ne_none q
        · cases hex

end Event

/-- What a step does to the numbers that are lost: one more is, if a load faults. -/
def Event.Loses (M : Machine) (k : Kernel) (e : Event) (d d' : Terminals) : Prop :=
  (e.Fits M k ∧ d'.lost = d.lost) ∨
    ¬ e.Fits M k ∧ ∃ q, k.freeSlot = some q ∧ d'.lost = (d.lose q).lost

theorem Event.Loses.mono {M : Machine} {k : Kernel} {e : Event} {d d' : Terminals}
    (h : e.Loses M k d d') {p : Nat} (hp : d.lost p) : d'.lost p := by
  rcases h with ⟨-, hlost⟩ | ⟨-, q, -, hlost⟩
  · rwa [hlost]
  · rw [hlost]
    exact Or.inl hp

/-- **Every step keeps the relation** to the terminals, unless it fails to open one.  No
process number is lost unless a load faults. -/
theorem Effect.represents {M : Machine} {k k' : Kernel} {d : Terminals} {e : Event} {o : Outcome}
    (he : e.Valid k) (hopens : e.CanOpen k) (h : Represents k d) (heff : Effect M k e o k') :
    ∃ d', Represents k' d' ∧ e.Loses M k d d' := by
  have hother : ∀ {c : Call} {d' : Terminals}, e.call = c → (∀ command, c ≠ .execute command) →
      d'.lost = d.lost → e.Loses M k d d' := by
    rintro c d' hc hne hlost
    exact Or.inl ⟨Event.fits_of_ne fun command ↦ hc.trans_ne (hne command), hlost⟩
  cases heff with
  | executeFails hc hex =>
      refine ⟨d, h, Or.inl ⟨?_, rfl⟩⟩
      by_contra hno
      obtain ⟨q, -, hfault⟩ := Event.execute_of_not_fits (he.word_lt hc) hc hno
      rw [hex] at hfault
      cases hfault
  | vidmapFails hc _ => exact ⟨d, h, hother hc nofun rfl⟩
  | vidmaps hc _ =>
      exact ⟨d, h.congr (fun _ ↦ .refl _) rfl rfl rfl rfl rfl, hother hc nofun rfl⟩
  | vidmapFaults hc _ hh =>
      have h' : Represents (k.vidmapped M) d := h.congr (fun _ ↦ .refl _) rfl rfl rfl rfl rfl
      obtain ⟨d', hd', hlost⟩ := h'.halt hh
      exact ⟨d', hd', hother hc nofun hlost⟩
  | tickStays hc =>
      exact ⟨d, h.congr (fun a ↦ (Pcb.SameLinks.setFrame _ _).update a) rfl rfl rfl rfl rfl,
        hother hc nofun rfl⟩
  | tickSwitches _ hnext hne => exact absurd (hnext.trans h.tick_stays) hne
  | executes hc hq hload =>
      refine ⟨_, h.launch_push hq he.onStack _ _ _, Or.inl ⟨fun command' dentry hc' _ hvalid ↦ ?_,
        rfl⟩⟩
      obtain ⟨dentry', hvalid', hbytes⟩ := hload
      cases hc.symm.trans hc'
      cases hvalid.symm.trans hvalid'
      by_contra hfits
      rw [loadFile_eq_none_iff.mpr hfits] at hbytes
      cases hbytes
  | executeFaults hc hq hex hh =>
      obtain ⟨d', hd', hlost⟩ := (h.faulted hq e.locals.mem).halt hh
      exact ⟨d', hd', Or.inr ⟨Event.not_fits_of_fault hc hex, _, hq, hlost⟩⟩
  | opens hc hun hq =>
      exact ⟨_, h.launch_open (he.tty_lt hc) hun hq _ _ _ _, hother hc nofun rfl⟩
  | openFails hc hun hnone => exact absurd hnone (hopens _ hc hun)
  | focuses hc hopen => exact ⟨_, h.focus (he.tty_lt hc) hopen, hother hc nofun rfl⟩
  | halts hc hh =>
      obtain ⟨d', hd', hlost⟩ := h.halt hh
      exact ⟨d', hd', hother hc nofun hlost⟩

/-! ## Boot -/

/-- No terminal is opened. -/
def Terminals.unopened : Terminals where
  stack _ := []
  active := 0
  lost _ := False

/-- One shell, on the first terminal. -/
def Terminals.initial : Terminals := Terminals.unopened.set 0 [0]

theorem Terminals.mem_initial {t p : Nat} : p ∈ Terminals.initial.stack t ↔ t = 0 ∧ p = 0 := by
  by_cases ht : t = 0
  · subst ht
    rw [Terminals.initial, Terminals.set_stack_self, List.mem_singleton, eq_self, true_and]
  · rw [Terminals.initial, Terminals.set_stack_of_ne _ ht]
    exact ⟨fun hp ↦ (List.not_mem_nil hp).elim, fun hp ↦ absurd hp.1 ht⟩

theorem Terminals.Valid.initial : Terminals.initial.Valid where
  active_lt := Nat.zero_lt_succ _
  active_ne := List.cons_ne_nil _ _
  stack_lt t hne := by
    obtain ⟨p, hp⟩ := List.exists_mem_of_ne_nil _ hne
    rw [(Terminals.mem_initial.mp hp).1]
    decide
  lt t p hp := by
    rw [(Terminals.mem_initial.mp hp).2]
    decide
  nodup t := by
    by_cases ht : t = 0
    · subst ht
      exact List.nodup_singleton 0
    · rw [Terminals.initial, Terminals.set_stack_of_ne _ ht]
      exact List.nodup_nil
  disjoint t t' p h h' := (Terminals.mem_initial.mp h).1.trans (Terminals.mem_initial.mp h').1.symm
  lost _ _ _ := id
  lost_lt _ := False.elim
  zero := ⟨0, rfl⟩

/-- The first shell. -/
theorem Represents.boot {M : Machine} (hM : M.HasShell) (b : BootState) :
    ∃ k, Illinix.boot M b = some k ∧ Represents k Terminals.initial := by
  obtain ⟨args, bytes, hboot⟩ := boot_effect hM b
  refine ⟨_, hboot, Terminals.Valid.initial, ?_, ?_, rfl, Kernel.launch_flag .., ?_⟩
  · have hself := Kernel.launch_pcbs_self M (bootKernel M b) 0 b.frame b.locals args bytes
    have hempty : Stacked (bootKernel M b) Terminals.unopened :=
      ⟨fun _ _ _ ↦ rfl, fun _ _ _ h ↦ (by cases h), fun _ _ _ h ↦ (by cases h),
        fun _ _ h ↦ (by cases h), fun _ _ h ↦ (by cases h)⟩
    refine hempty.set (fun _ _ _ hx ↦ by cases hx) ?_ rfl (.root ?_) ?_ ?_
    · intro t ht
      exact Function.update_of_ne ht ..
    · rw [Kernel.parentOf, hself]
      exact Kernel.newPcb_parent_of_isRoot (Or.inl rfl)
    · intro x hx
      rw [List.mem_singleton.mp hx, hself]
      rfl
    · intro x hx
      rw [List.mem_singleton.mp hx, hself]
      rfl
  · intro p _
    have hused : Terminals.initial.Used p ↔ p = 0 := by
      refine ⟨?_, fun hp ↦ Or.inl ⟨0, Terminals.mem_initial.mpr ⟨rfl, hp⟩⟩⟩
      rintro (⟨t, ht⟩ | hlost)
      · exact (Terminals.mem_initial.mp ht).2
      · exact hlost.elim
    rw [hused, Kernel.launch_processes]
    by_cases hp : p = 0
    · subst hp
      exact ⟨fun _ ↦ Function.update_self .., fun hn ↦ absurd rfl hn⟩
    · rw [Function.update_of_ne hp]
      exact ⟨fun h ↦ absurd h hp, fun _ ↦ rfl⟩
  · rw [Kernel.launch_current, Kernel.launch_ttyTopPid, Kernel.launch_activeTty,
      Function.update_self]

/-! ## The forest -/

/-- The steps of the forest: valid entries, where a terminal that is opened gets its shell. -/
structure ForestStep (M : Machine) (k : Kernel) (e : Event) : Prop where
  valid : e.Valid k
  opens : ∀ tty, e.call = .switchToTty tty → k.ttyTopPid tty = ttyUnopened →
    execute M (k.wantsShell tty) e.frame e.locals M.shellCommand ≠ some .error

theorem ForestStep.canOpen {M : Machine} (hM : M.HasShell) {k : Kernel} {e : Event}
    (h : ForestStep M k e) : e.CanOpen k := by
  intro tty hc hun hnone
  rcases execute_shell hM (k.wantsShell tty) e.frame e.locals with ⟨_, hex⟩ | ⟨q, _, _, _, hq, _⟩
  · exact h.opens tty hc hun hex
  · have hfree : (k.wantsShell tty).freeSlot = none := hnone
    rw [hfree] at hq
    cases hq

/-- The process forest: `chain t` lists the processes of terminal `t`, from its top to its
root. -/
structure ProcessForest (k : Kernel) (chain : Nat → List Nat) : Prop where
  /-- The chain of an opened terminal starts at its top and follows the parents up to a
  root. -/
  follows : ∀ t, t < maxTty → k.ttyTopPid t ≠ ttyUnopened →
    Base.Chain (fun a ↦ (k.pcbs a).parent) (pcbAddr (k.ttyTopPid t)) ((chain t).map pcbAddr)
  /-- Its members are process numbers. -/
  lt : ∀ t p, p ∈ chain t → p < maxNumProcesses
  /-- The processes in the table are those of the chains of opened terminals. -/
  live : ∀ p, p < maxNumProcesses → (k.processes p = 1 ↔
    ∃ t, t < maxTty ∧ k.ttyTopPid t ≠ ttyUnopened ∧ p ∈ chain t)
  /-- No process is on two chains. -/
  disjoint : ∀ t t' p, p ∈ chain t → p ∈ chain t' → t = t'
  /-- The PCBs name the terminal and the process number. -/
  tty : ∀ t p, p ∈ chain t → (k.pcbs (pcbAddr p)).tty = t
  num : ∀ t p, p ∈ chain t → (k.pcbs (pcbAddr p)).processNum = p
  /-- The top of the terminal in front runs. -/
  active_lt : k.activeTty < maxTty
  active_opened : k.ttyTopPid k.activeTty ≠ ttyUnopened
  running : k.current = pcbAddr (k.ttyTopPid k.activeTty)
  /-- Process 0 is live, and a root. -/
  zero_live : k.processes 0 = 1
  zero_root : (k.pcbs (pcbAddr 0)).parent = pcbAddr 0

/-- The relation to terminals that have lost nothing is the forest. -/
theorem Represents.processForest {k : Kernel} {d : Terminals} (h : Represents k d)
    (hlost : ∀ p, ¬ d.lost p) : ProcessForest k d.stack := by
  have hopened : ∀ t p, p ∈ d.stack t → k.ttyTopPid t ≠ ttyUnopened := by
    intro t p hp hun
    rw [h.stack_eq_nil hun] at hp
    cases hp
  constructor
  case follows =>
    intro t ht hne
    obtain ⟨l, hl⟩ := h.exists_stack ht hne
    rw [hl]
    exact h.stacked.chain t _ l hl
  case lt => exact h.valid.lt
  case live =>
    intro p hp
    constructor
    · intro h1
      by_cases hused : d.Used p
      · obtain ⟨t, ht⟩ := hused.resolve_right (hlost p)
        exact ⟨t, h.valid.stack_lt t (List.ne_nil_of_mem ht), hopened t p ht, ht⟩
      · rw [(h.used p hp).2 hused] at h1
        cases h1
    · rintro ⟨t, _, _, ht⟩
      exact (h.used p hp).1 (Or.inl ⟨t, ht⟩)
  case disjoint => exact h.valid.disjoint
  case tty => exact h.stacked.tty
  case num => exact h.stacked.num
  case active_lt => rw [h.active]; exact h.valid.active_lt
  case active_opened =>
    obtain ⟨p, l, hstack, _, _⟩ := h.exists_running
    rw [h.active]
    exact hopened d.active p (by rw [hstack]; exact List.mem_cons_self)
  case running => exact h.current
  case zero_live => exact (h.used 0 (by decide)).1 h.valid.zero_used
  case zero_root =>
    obtain ⟨t, ht⟩ := h.valid.zero
    obtain ⟨p, l, hpl⟩ := List.exists_cons_of_ne_nil
      (List.ne_nil_of_mem (List.mem_of_getLast? ht))
    refine (h.stacked.chain t p l hpl).parent_getLast ?_
    rw [List.getLast?_map, ← hpl, ht, Option.map_some]

/-- A number that is lost is in the table, and on no chain. -/
theorem Represents.processForest_iff {k : Kernel} {d : Terminals} (h : Represents k d) :
    (∃ chain, ProcessForest k chain) ↔ ∀ p, ¬ d.lost p := by
  refine ⟨?_, fun hlost ↦ ⟨d.stack, h.processForest hlost⟩⟩
  rintro ⟨chain, hforest⟩ p hp
  have hlt := h.valid.lost_lt p hp
  obtain ⟨t, ht, hopen, hmem⟩ := (hforest.live p hlt).mp ((h.used p hlt).1 (Or.inr hp))
  obtain ⟨l, hstack⟩ := h.exists_stack ht hopen
  -- the chain of the terminal is its stack
  have heq := (hforest.follows t ht hopen).unique (h.stacked.chain t _ l hstack)
  have hmem' : pcbAddr p ∈ (chain t).map pcbAddr := List.mem_map_of_mem hmem
  rw [heq] at hmem'
  obtain ⟨x, hx, hxp⟩ := List.mem_map.mp hmem'
  rw [← hstack] at hx
  rw [← pcbAddr_inj (h.valid.lt t x hx) hlt hxp] at hp
  exact h.valid.lost t x hx hp

/-! ## Runs -/

theorem Event.Loses.none_lost_iff {M : Machine} {k : Kernel} {e : Event} {d d' : Terminals}
    (h : e.Loses M k d d') : (∀ p, ¬ d'.lost p) ↔ e.Fits M k ∧ ∀ p, ¬ d.lost p := by
  rcases h with ⟨hfits, hlost⟩ | ⟨hno, q, -, hlost⟩
  · rw [hlost, and_iff_right hfits]
  · rw [hlost]
    exact iff_of_false (fun h ↦ h q (Or.inr rfl)) fun h ↦ hno h.1

/-- A step of the forest goes through, and keeps the relation. -/
theorem Represents.forestStep {M : Machine} (hM : M.HasShell) {k : Kernel} {d : Terminals}
    {e : Event} (he : ForestStep M k e) (h : Represents k d) :
    ∃ k' d', next M k e = some k' ∧ Represents k' d' ∧ e.Loses M k d d' := by
  obtain ⟨o, k', hstep, heff⟩ := step_effect hM he.valid h.running
  obtain ⟨d', hd', hlost⟩ := heff.represents he.valid (he.canOpen hM) h
  exact ⟨k', d', next_of_step hstep, hd', hlost⟩

/-- A run of such steps, and the numbers that are lost in it. -/
theorem Represents.forestRun {M : Machine} (hM : M.HasShell) {es : List Event} {k : Kernel}
    {d : Terminals} (h : Represents k d) (hes : Base.AllSteps (next M) (ForestStep M) k es) :
    ∃ k' d', Base.exec (next M) k es = some k' ∧ Represents k' d' ∧
      ((∀ p, ¬ d'.lost p) ↔
        Base.AllSteps (next M) (fun k e ↦ e.Fits M k) k es ∧ ∀ p, ¬ d.lost p) := by
  induction es generalizing k d with
  | nil => exact ⟨k, d, rfl, h, (and_iff_right trivial).symm⟩
  | cons e es ih =>
      obtain ⟨he, hrest⟩ := hes
      obtain ⟨k₁, d₁, hnext, h₁, hloses⟩ := h.forestStep hM he
      obtain ⟨k', d', hexec, h', hiff⟩ := ih h₁ (hrest k₁ hnext)
      refine ⟨k', d', Base.exec_cons_eq_some.mpr ⟨k₁, hnext, hexec⟩, h', ?_⟩
      rw [hiff, hloses.none_lost_iff, Base.allSteps_cons_iff hnext, and_assoc, and_left_comm]

/-- **When the processes are a forest.**  From the first shell on, every run of forest steps goes
through.  In the state it leads to the processes in the table are the disjoint chains of the opened
terminals, if and only if each `execute` of the run that had a process number to give named no
executable, or one that fits in the user page. -/
theorem process_forest_iff (M : Machine) (hM : M.HasShell) (b : BootState) :
    ∃ k₀, boot M b = some k₀ ∧
      ∀ es, Base.AllSteps (next M) (ForestStep M) k₀ es →
        ∃ k, Base.exec (next M) k₀ es = some k ∧
          ((∃ chain, ProcessForest k chain) ↔
            Base.AllSteps (next M) (fun k e ↦ e.Fits M k) k₀ es) := by
  obtain ⟨k₀, hboot, h₀⟩ := Represents.boot hM b
  refine ⟨k₀, hboot, fun es hes ↦ ?_⟩
  obtain ⟨k, d, hexec, hd, hiff⟩ := h₀.forestRun hM hes
  refine ⟨k, hexec, ?_⟩
  rw [hd.processForest_iff, hiff]
  exact and_iff_left fun _ ↦ id

/-- `ForestStep` as a computation. -/
def Event.checkForest (M : Machine) (k : Kernel) (e : Event) : Bool :=
  decide (e.Valid k) &&
    match e.call with
    | .switchToTty tty =>
        match execute M (k.wantsShell tty) e.frame e.locals M.shellCommand with
        | some .error => k.ttyTopPid tty != ttyUnopened
        | _ => true
    | _ => true

theorem ForestStep.of_checkForest {M : Machine} {k : Kernel} {e : Event}
    (h : e.checkForest M k = true) : ForestStep M k e := by
  rw [Event.checkForest, Bool.and_eq_true, decide_eq_true_eq] at h
  obtain ⟨hvalid, h⟩ := h
  refine ⟨hvalid, fun tty hc hun hex ↦ ?_⟩
  simp only [hc, hex, hun, bne_self_eq_false] at h
  cases h

/-- `Fits` as a computation. -/
def Event.checkFits (M : Machine) (k : Kernel) (e : Event) : Bool :=
  match e.call with
  | .execute command =>
      (checkValidity M.img (Bytes.ofList (firstWord command)) e.locals.exeCheck).all fun dentry ↦
        k.freeSlot.isNone || decide (M.img.FitsPage dentry.inodeNum)
  | _ => true

theorem Event.fits_of_checkFits {M : Machine} {k : Kernel} {e : Event}
    (h : e.checkFits M k = true) : e.Fits M k := by
  intro command dentry hc hfree hvalid
  simp only [checkFits, hc, hvalid, Option.all_some, Bool.or_eq_true, Option.isNone_iff_eq_none,
    decide_eq_true_eq] at h
  exact h.resolve_left hfree

/-- Programs on two terminals, and a root that ends. -/
def forestSession : List Event :=
  [tinyEvent 0 tinyShell, tinyEvent 1 (.switchToTty 2), tinyEvent 2 (.tick 255),
    tinyEvent 2 (.halt .syscall 3), tinyEvent 2 (.switchToTty 0),
    tinyEvent 1 (.halt .exception 0)]

theorem process_forest_session :
    ∃ k₀ k chain, boot tinyMachine tinyBoot = some k₀ ∧
      Base.exec (next tinyMachine) k₀ forestSession = some k ∧ ProcessForest k chain := by
  obtain ⟨k₀, hboot, hrun⟩ := process_forest_iff tinyMachine tinyMachine_hasShell tinyBoot
  have hcheck : (boot tinyMachine tinyBoot).all fun k ↦ Base.checkSteps (next tinyMachine)
      (fun k e ↦ e.checkForest tinyMachine k && e.checkFits tinyMachine k) k forestSession := by
    decide
  rw [hboot, Option.all_some] at hcheck
  have hboth : Base.AllSteps (next tinyMachine)
      (fun k e ↦ ForestStep tinyMachine k e ∧ e.Fits tinyMachine k) k₀ forestSession := by
    refine Base.AllSteps.of_checkSteps (fun k e h ↦ ?_) hcheck
    rw [Bool.and_eq_true] at h
    exact ⟨.of_checkForest h.1, Event.fits_of_checkFits h.2⟩
  obtain ⟨k, hexec, hiff⟩ := hrun _ (hboth.mono fun _ _ ↦ And.left)
  obtain ⟨chain, hforest⟩ := hiff.mpr (hboth.mono fun _ _ ↦ And.right)
  exact ⟨k₀, k, chain, hboot, hexec, hforest⟩

/-! ## A number that is lost -/

/-- The shell of the small image, and an executable `long` of one byte more than there is room for;
all its block numbers are `0`. -/
def longImage : Image where
  byte a :=
    if a = 0 ∨ a = 4 then 2
    else if 128 ≤ a ∧ a < 132 then [0x6c, 0x6f, 0x6e, 0x67].getD (a - 128) 0
    else if a = 160 then 2
    else if a = 164 ∨ a = 8192 then 1
    else if a = 8193 then 0x80
    else if a = 8194 then 0x3b
    else if a < 8192 then tinyImage.byte a
    else if a < 12288 then 0
    else tinyImage.byte (a - 4096)

theorem longImage_wellFormed : longImage.WellFormed where
  inodeNum_lt := by decide
  length_le := by decide
  blockNum_lt i hi _ k hk := by
    have hlength : ∀ i, i < 2 → longImage.inodeNum i < 2 ∧
        longImage.inodeLength (longImage.inodeNum i) ≤ programRoom + 1 := by decide
    obtain ⟨hinode, hle⟩ := hlength i hi
    have hnum : longImage.dataBlockNum (longImage.inodeNum i) k = 0 := by
      refine Image.dataBlockNum_eq_zero (fun a hle hlt ↦ ?_) ?_
      · simp only [Image.inodeAddr, dataBlockSize] at hle hlt
        have hmod : a % 2 ^ 32 = a := Nat.mod_eq_of_lt (by omega)
        simp only [Image.load, hmod, longImage, tinyImage]
        repeat rw [if_neg (by omega)]
        split
        · repeat rw [if_neg (by omega)]
        · rw [if_pos (by omega)]
      · have hroom : programRoom = 3899392 := by decide
        rw [dataBlockSize] at hk
        rw [numDataBlocks]
        omega
    rw [hnum]
    decide

/-- A machine with a shell and a program that is too long for the user page. -/
def longMachine : Machine := { tinyMachine with img := longImage }

theorem longMachine_hasShell : longMachine.HasShell :=
  ⟨⟨strncpy shellName fileNameSize, 2, 0⟩, by decide, rfl, by decide, by decide, by decide⟩

/-- The name of the long program. -/
def longName : Bytes := Bytes.ofList [0x6c, 0x6f, 0x6e, 0x67]

/-- A program asks for the long one. -/
def longCall : Call := .execute longName

/-- It is found, accepted, and too long. -/
theorem longCall_not_fits {k : Kernel} (pid : Nat) (hfree : k.freeSlot ≠ none) :
    ¬ (tinyEvent pid longCall).Fits longMachine k := by
  intro hfits
  have hvalid : checkValidity longImage (Bytes.ofList (firstWord longName)) tinyLocals.exeCheck =
      some ⟨strncpy longName fileNameSize, 2, 1⟩ := by decide
  exact absurd (hfits longName _ rfl hfree hvalid) (by decide)

/-- The first shell runs the long program, and is ended by the page fault.  Number 1 is in the
table then, and on no chain. -/
theorem forest_leaks :
    longImage.WellFormed ∧ longMachine.HasShell ∧
      ∃ k₀ k, boot longMachine tinyBoot = some k₀ ∧
        ForestStep longMachine k₀ (tinyEvent 0 longCall) ∧
        next longMachine k₀ (tinyEvent 0 longCall) = some k ∧ k.processes 1 = 1 ∧
        ¬ ∃ chain, ProcessForest k chain := by
  obtain ⟨k₀, hboot, h₀⟩ := Represents.boot longMachine_hasShell tinyBoot
  have hcheck : (boot longMachine tinyBoot).all fun k ↦
      (tinyEvent 0 longCall).checkForest longMachine k && (k.freeSlot == some 1) := by decide
  rw [hboot, Option.all_some, Bool.and_eq_true, beq_iff_eq] at hcheck
  obtain ⟨hforest, hfree⟩ := hcheck
  have hstep := ForestStep.of_checkForest hforest
  have hnofit : ¬ (tinyEvent 0 longCall).Fits longMachine k₀ :=
    longCall_not_fits 0 (by rw [hfree]; exact Option.some_ne_none 1)
  obtain ⟨k, d, hnext, hd, hloses⟩ := h₀.forestStep longMachine_hasShell hstep
  obtain ⟨-, q, hq, hlost⟩ := hloses.resolve_left fun h ↦ hnofit h.1
  obtain rfl : q = 1 := Option.some.inj (hq.symm.trans hfree)
  have hlost1 : d.lost 1 := by
    rw [hlost]
    exact Or.inr rfl
  refine ⟨longImage_wellFormed, longMachine_hasShell, k₀, k, hboot, hstep, hnext,
    (hd.used 1 (by decide)).1 (Or.inr hlost1), ?_⟩
  rw [hd.processForest_iff]
  exact fun hnone ↦ hnone 1 hlost1

end Illinix
