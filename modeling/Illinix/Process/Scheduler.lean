import Illinix.Process.Designation
import Mathlib.Data.List.Nodup
import Mathlib.Data.List.Perm.Subperm

/-!
# The timer

On a PIT tick, `switch_process` asks `get_next_process` for the process to go to.  The
function searches the terminals after the one of the running process for an opened one,
and then returns the top of the terminal it started from.  So a tick selects the top of
the running process's own terminal, and the processor goes round the terminals only if
there is nothing to go round: `round_robin_iff`.

The search itself starts one past the terminal of the running process, and takes the
remainder by `MAX_TTY` only from its second place on.  `Search` is the loop with the
indices that it reads.  It ends if a terminal is opened, and it stays inside `tty_top_pid`
if the running process is not on the last terminal: `timer_safe_iff`.  While the kernel
boots there is no opened terminal, and between `sti` and the first shell a tick can find
the table in that state.
-/

namespace Illinix

/-! ## Which process a tick selects -/

namespace Kernel

/-- The terminals that are opened. -/
def openedTtys (k : Kernel) : List Nat :=
  (List.range maxTty).filter fun t ↦ k.ttyTopPid t ≠ ttyUnopened

/-- The first opened terminal among the three after `t`, in cyclic order. -/
def firstOpenedAfter (k : Kernel) (t : Nat) : Option Nat :=
  [(t + 1) % maxTty, (t + 2) % maxTty, (t + 3) % maxTty].find? fun n ↦
    k.ttyTopPid n ≠ ttyUnopened

/-- The process that `switch_process` gets from `get_next_process`; nothing for the other
entries into the kernel. -/
def selected (k : Kernel) (e : Event) : Option Nat :=
  match e.call with
  | .tick beyond =>
      (k.saveFrame (getPcb e.frame.esp) e.frame).getNextProcess beyond
        (k.pcbs (getPcb e.frame.esp)).tty
  | _ => none

theorem mem_openedTtys {k : Kernel} {t : Nat} :
    t ∈ k.openedTtys ↔ t < maxTty ∧ k.ttyTopPid t ≠ ttyUnopened := by
  rw [openedTtys, List.mem_filter, List.mem_range, decide_eq_true_eq]

end Kernel

/-- A tick of the PIT. -/
def Event.IsTick (e : Event) : Prop := ∃ beyond, e.call = .tick beyond

/-- The processes that the ticks of a run select. -/
def selections (M : Machine) : Kernel → List Event → List (Option Nat)
  | _, [] => []
  | k, e :: es => k.selected e :: (next M k e).elim [] fun k' ↦ selections M k' es

/-- The processor goes round the terminals: a tick selects the top of the next opened
terminal, and as many ticks in a row as there are opened terminals select the top of each
of them once. -/
structure RoundRobin (M : Machine) (k : Kernel) : Prop where
  selects : ∀ e, e.Valid k → e.IsTick →
    ∃ n, k.firstOpenedAfter (k.pcbs k.current).tty = some n ∧
      k.selected e = some (k.ttyTopPid n)
  fair : ∀ es, es.length = k.openedTtys.length →
    Base.AllSteps (next M) (fun k e ↦ e.Valid k ∧ e.IsTick) k es →
    ∀ t ∈ k.openedTtys, (selections M k es).count (some (k.ttyTopPid t)) = 1

section Tick

variable {M : Machine} {k : Kernel} {vid : Bool} {e : Event}

/-- The terminal of the running process is opened. -/
theorem Designated.tty_opened (h : Designated M k vid) :
    (k.pcbs k.current).tty ∈ k.openedTtys := by
  have hr := h.running
  have htop := hr.top_lt
  refine Kernel.mem_openedTtys.mpr ⟨hr.tty_lt, ?_⟩
  simp only [maxNumProcesses, ttyUnopened] at htop ⊢
  omega

/-- **A tick selects the top of the terminal it interrupts.** -/
theorem Designated.selected_tick (h : Designated M k vid) (he : e.Valid k) (ht : e.IsTick) :
    k.selected e = some (k.ttyTopPid (k.pcbs k.current).tty) := by
  obtain ⟨beyond, hc⟩ := ht
  obtain ⟨hlt, hopen⟩ := Kernel.mem_openedTtys.mp h.tty_opened
  rw [Kernel.selected, hc, he.onStack]
  exact getNextProcess_eq hlt hopen

/-- A tick goes through and leaves the tops of the terminals. -/
theorem Designated.next_tick (hM : M.HasShell) (h : Designated M k vid) (he : e.Valid k)
    (ht : e.IsTick) :
    ∃ k', next M k e = some k' ∧ Designated M k' vid ∧ k'.ttyTopPid = k.ttyTopPid := by
  obtain ⟨beyond, hc⟩ := ht
  obtain ⟨o, k', hstep, heff⟩ := h.step_effect hM he
  refine ⟨k', next_of_step hstep, ?_, ?_⟩
  · have hd := heff.designated he h
    rwa [hc] at hd
  · cases heff with
    | tickStays _ => rfl
    | tickSwitches _ _ _ => rfl
    | _ => simp_all

/-- Every selection of a run of ticks is the top of an opened terminal. -/
theorem Designated.selections_ticks (hM : M.HasShell) {es : List Event}
    (h : Designated M k vid)
    (hes : Base.AllSteps (next M) (fun k e ↦ e.Valid k ∧ e.IsTick) k es) :
    (selections M k es).length = es.length ∧
      ∀ x ∈ selections M k es, x ∈ k.openedTtys.map fun t ↦ some (k.ttyTopPid t) := by
  induction es generalizing k with
  | nil => exact ⟨rfl, fun x hx ↦ absurd hx List.not_mem_nil⟩
  | cons e es ih =>
      obtain ⟨⟨he, ht⟩, hrest⟩ := hes
      obtain ⟨k', hk', hd', htops⟩ := h.next_tick hM he ht
      obtain ⟨hlen, hmem⟩ := ih hd' (hrest k' hk')
      have hopened : k'.openedTtys = k.openedTtys := by rw [Kernel.openedTtys, htops]; rfl
      rw [selections, hk', Option.elim_some]
      refine ⟨congrArg (· + 1) hlen, fun x hx ↦ ?_⟩
      rcases List.mem_cons.mp hx with rfl | hx
      · exact List.mem_map.mpr ⟨_, h.tty_opened, (h.selected_tick he ht).symm⟩
      · have hx' := hmem x hx
        rwa [hopened, htops] at hx'

/-- There is always a run of ticks. -/
theorem Designated.exists_ticks (hM : M.HasShell) (l : Locals) (n : Nat)
    (h : Designated M k vid) :
    ∃ es : List Event, es.length = n ∧
      Base.AllSteps (next M) (fun k e ↦ e.Valid k ∧ e.IsTick) k es := by
  induction n generalizing k with
  | zero => exact ⟨[], rfl, trivial⟩
  | succ n ih =>
      have hcur : getPcb k.current = k.current := by
        obtain ⟨_, r, _, _, hd⟩ := h
        rw [hd.current]
        refine getPcb_eq hd.lt (Nat.le_refl _) ?_
        simp only [pcbAddr, stackTop, kernelBottom, eightKb, bytesInInt]
        omega
      have he : (Event.mk (.tick 0) ⟨k.current, 0⟩ l l).Valid k := ⟨hcur, trivial⟩
      obtain ⟨k', hk', hd', _⟩ := h.next_tick hM he ⟨0, rfl⟩
      obtain ⟨es, hlen, hes⟩ := ih hd'
      refine ⟨_ :: es, congrArg (· + 1) hlen, ⟨he, ⟨0, rfl⟩⟩, fun k'' hk'' ↦ ?_⟩
      rw [hk'] at hk''
      cases hk''
      exact hes

end Tick

/-- If a list has an entry for each element of another, and every image of such an element
occurs in it once, then the images are different. -/
theorem nodup_map_of_count_eq_one {α β : Type*} [BEq β] [LawfulBEq β] {f : α → β} {l : List α}
    {l' : List β} (hlen : l'.length = l.length) (hmem : ∀ x ∈ l', x ∈ l.map f)
    (hcount : ∀ a ∈ l, l'.count (f a) = 1) : (l.map f).Nodup := by
  have hnodup : l'.Nodup := by
    rw [List.nodup_iff_count]
    intro x
    by_cases hx : x ∈ l'
    · obtain ⟨a, ha, rfl⟩ := List.mem_map.mp (hmem x hx)
      exact (hcount a ha).le
    · rw [List.count_eq_zero_of_not_mem hx]
      exact Nat.zero_le 1
  have hperm : l'.Perm (l.map f) := by
    refine (hnodup.subperm hmem).perm_of_length_le ?_
    rw [List.length_map, hlen]
  exact hperm.nodup_iff.mp hnodup

section RoundRobin

variable {M : Machine} {k : Kernel} {vid : Bool}

/-- The search comes back to the terminal it started from only if no other is opened. -/
theorem eq_of_firstOpenedAfter {t n : Nat} (ht : t < maxTty)
    (h : k.firstOpenedAfter t = some t) (hn : n ∈ k.openedTtys) : n = t := by
  obtain ⟨hlt, hopen⟩ := Kernel.mem_openedTtys.mp hn
  have h₁ : (t + 1) % maxTty ≠ t := by simp only [maxTty] at ht ⊢; omega
  have h₂ : (t + 2) % maxTty ≠ t := by simp only [maxTty] at ht ⊢; omega
  have hcases : n = t ∨ n = (t + 1) % maxTty ∨ n = (t + 2) % maxTty := by
    simp only [maxTty] at ht hlt ⊢
    omega
  rw [Kernel.firstOpenedAfter, List.find?_cons] at h
  rcases hcases with rfl | rfl | rfl
  · rfl
  · rw [decide_eq_true hopen] at h
    exact absurd (Option.some.inj h) h₁
  · split at h
    · exact absurd (Option.some.inj h) h₁
    · rw [List.find?_cons, decide_eq_true hopen] at h
      exact absurd (Option.some.inj h) h₂

/-- A search among the terminals finds an opened one, if there is one. -/
theorem exists_firstOpenedAfter {t : Nat} (h : t ∈ k.openedTtys) :
    ∃ n ∈ k.openedTtys, k.firstOpenedAfter t = some n := by
  obtain ⟨hlt, hopen⟩ := Kernel.mem_openedTtys.mp h
  have hback : (t + 3) % maxTty = t := by simp only [maxTty] at hlt ⊢; omega
  cases hf : k.firstOpenedAfter t with
  | none =>
      rw [Kernel.firstOpenedAfter, List.find?_eq_none] at hf
      have hun := hf t (by simp [hback])
      rw [decide_eq_true_eq, not_not] at hun
      exact absurd hun hopen
  | some n =>
      rw [Kernel.firstOpenedAfter] at hf
      have hn := List.find?_some hf
      have hmem := List.mem_of_find?_eq_some hf
      rw [decide_eq_true_eq] at hn
      refine ⟨n, Kernel.mem_openedTtys.mpr ⟨?_, hn⟩, rfl⟩
      simp only [maxTty, List.mem_cons, List.not_mem_nil, or_false] at hmem ⊢
      omega

/-- With one opened terminal, it is the only entry of the list. -/
theorem openedTtys_eq_singleton {t : Nat} (ht : t ∈ k.openedTtys)
    (h : ∀ n ∈ k.openedTtys, n = t) : k.openedTtys = [t] := by
  have hnodup : k.openedTtys.Nodup := List.nodup_range.filter _
  refine List.perm_singleton.mp ((List.perm_ext_iff_of_nodup hnodup (List.nodup_singleton t)).mpr ?_)
  intro n
  rw [List.mem_singleton]
  refine ⟨h n, ?_⟩
  rintro rfl
  exact ht

/-- **When the processor goes round**, in a state that satisfies the invariant. -/
theorem Designated.roundRobin_iff (hM : M.HasShell) (l : Locals) (h : Designated M k vid) :
    RoundRobin M k ↔ ∀ n ∈ k.openedTtys, n = (k.pcbs k.current).tty := by
  have hmem := h.tty_opened
  constructor
  · intro hrr
    obtain ⟨es, hlen, hes⟩ := h.exists_ticks hM l k.openedTtys.length
    obtain ⟨hlen', hsel⟩ := h.selections_ticks hM hes
    have hnodup := nodup_map_of_count_eq_one (hlen'.trans hlen) hsel (hrr.fair es hlen hes)
    obtain ⟨e, he, ht⟩ : ∃ e : Event, e.Valid k ∧ e.IsTick := by
      obtain ⟨es, hlen, hes⟩ := h.exists_ticks hM l 1
      obtain ⟨e, rfl⟩ := List.length_eq_one_iff.mp hlen
      exact ⟨e, hes.1⟩
    obtain ⟨n, hn, hsome⟩ := hrr.selects e he ht
    obtain ⟨n', hn', hfirst⟩ := exists_firstOpenedAfter hmem
    -- the tops of the opened terminals differ, so the terminal found is the one left
    have heq : n = (k.pcbs k.current).tty := by
      rw [hfirst] at hn
      cases hn
      rw [h.selected_tick he ht] at hsome
      exact List.inj_on_of_nodup_map hnodup hn' hmem hsome.symm
    rw [heq] at hn
    exact fun m ↦ eq_of_firstOpenedAfter h.running.tty_lt hn
  · intro honly
    have hone := openedTtys_eq_singleton hmem honly
    obtain ⟨n, hn, hfirst⟩ := exists_firstOpenedAfter hmem
    cases honly n hn
    refine ⟨fun e he ht ↦ ⟨_, hfirst, h.selected_tick he ht⟩, fun es hlen hes t ht ↦ ?_⟩
    rw [hone] at hlen
    obtain ⟨e, rfl⟩ := List.length_eq_one_iff.mp hlen
    obtain ⟨k', hk', _, _⟩ := h.next_tick hM hes.1.1 hes.1.2
    rw [honly t ht, selections, h.selected_tick hes.1.1 hes.1.2, hk', Option.elim_some, selections,
      List.count_singleton_self]

end RoundRobin

/-- **When the processor goes round.**  In every state of every run of valid events, the
ticks go round the opened terminals if and only if no terminal is opened besides the one
of the running process. -/
theorem round_robin_iff (M : Machine) (hM : M.HasShell) (b : BootState) :
    ∃ k₀, boot M b = some k₀ ∧
      ∀ es, Base.AllSteps (next M) (fun k e ↦ e.Valid k) k₀ es →
        ∃ k, Base.exec (next M) k₀ es = some k ∧
          (RoundRobin M k ↔ ∀ n ∈ k.openedTtys, n = (k.pcbs k.current).tty) := by
  obtain ⟨k₀, hboot, h₀⟩ := Designated.boot hM b
  refine ⟨k₀, hboot, fun es hes ↦ ?_⟩
  obtain ⟨k, hexec, hk⟩ := h₀.exec hM hes
  exact ⟨k, hexec, hk.roundRobin_iff hM b.locals⟩

/-- A shell in the first shell: one terminal, and the ticks stay with it. -/
theorem round_robin_iff_one_terminal :
    ∃ k₀ k, boot tinyMachine tinyBoot = some k₀ ∧
      Base.exec (next tinyMachine) k₀ [tinyEvent 0 tinyShell, tinyEvent 1 (.tick 0)] = some k ∧
      RoundRobin tinyMachine k := by
  obtain ⟨k₀, hboot, hrun⟩ := round_robin_iff tinyMachine tinyMachine_hasShell tinyBoot
  have hcheck : (boot tinyMachine tinyBoot).all fun k ↦ Base.checkSteps (next tinyMachine)
      (fun k e ↦ decide (e.Valid k)) k [tinyEvent 0 tinyShell, tinyEvent 1 (.tick 0)] := by decide
  have hone : (boot tinyMachine tinyBoot).all fun k ↦
      (Base.exec (next tinyMachine) k [tinyEvent 0 tinyShell, tinyEvent 1 (.tick 0)]).all fun k ↦
        decide (∀ n ∈ k.openedTtys, n = (k.pcbs k.current).tty) := by decide
  rw [hboot, Option.all_some] at hcheck hone
  obtain ⟨k, hexec, hiff⟩ := hrun _
    (Base.AllSteps.of_decide hcheck)
  rw [hexec, Option.all_some, decide_eq_true_eq] at hone
  exact ⟨k₀, k, hboot, hexec, hiff.mpr hone⟩

/-- With a second terminal opened, the next tick should go to process 0 on the first one; it
selects process 1, which it interrupts. -/
theorem not_round_robin :
    ∃ k₀ k, boot tinyMachine tinyBoot = some k₀ ∧
      Base.AllSteps (next tinyMachine) (fun k e ↦ e.Valid k) k₀ [tinyEvent 0 (.switchToTty 1)] ∧
      Base.exec (next tinyMachine) k₀ [tinyEvent 0 (.switchToTty 1)] = some k ∧
      (tinyEvent 1 (.tick 0)).Valid k ∧ (k.pcbs k.current).tty = 1 ∧
      k.firstOpenedAfter 1 = some 0 ∧ k.ttyTopPid 0 = 0 ∧
      k.selected (tinyEvent 1 (.tick 0)) = some 1 ∧ ¬ RoundRobin tinyMachine k := by
  refine ⟨_, _, rfl, ?_, rfl, by decide, by decide, by decide, by decide, by decide, fun h ↦ ?_⟩
  · exact Base.AllSteps.of_decide rfl
  · obtain ⟨n, hn, hsome⟩ := h.selects (tinyEvent 1 (.tick 0)) (by decide) ⟨0, rfl⟩
    cases hn
    exact absurd hsome (by decide)

/-! ## The search loop -/

/-- The search loop of `get_next_process` from index `i`: it ends after it has read the
indices of the list. -/
inductive Search (top : Nat → Nat) : Nat → List Nat → Prop
  | found {i : Nat} : top i ≠ ttyUnopened → Search top i [i]
  | skips {i : Nat} {l : List Nat} : top i = ttyUnopened →
      Search top ((i + 1) % maxTty) l → Search top i (i :: l)

namespace Search

variable {top : Nat → Nat} {i : Nat} {l : List Nat}

/-- The search is the loop of the model. -/
theorem iff_nextTtyLoop :
    (∃ l, Search top i l) ↔ ∃ fuel r, Kernel.nextTtyLoop top fuel i = some r := by
  constructor
  · rintro ⟨l, h⟩
    induction h with
    | @found i hi => exact ⟨1, i, by rw [Kernel.nextTtyLoop, if_neg hi]⟩
    | skips hi _ ih =>
        obtain ⟨fuel, r, hr⟩ := ih
        exact ⟨fuel + 1, r, by rw [Kernel.nextTtyLoop, if_pos hi, hr]⟩
  · rintro ⟨fuel, r, h⟩
    induction fuel generalizing i with
    | zero => cases h
    | succ fuel ih =>
        rw [Kernel.nextTtyLoop] at h
        split at h
        · rename_i hi
          obtain ⟨l, hl⟩ := ih h
          exact ⟨i :: l, .skips hi hl⟩
        · rename_i hi
          exact ⟨[i], .found hi⟩

theorem start_mem (h : Search top i l) : i ∈ l := by
  cases h with
  | found _ => exact List.mem_singleton_self i
  | skips _ _ => exact List.mem_cons_self

/-- A search that ends inside the table has found an opened terminal. -/
theorem exists_opened (h : Search top i l) (hi : i < maxTty) :
    ∃ t, t < maxTty ∧ top t ≠ ttyUnopened := by
  induction h with
  | @found i hopen => exact ⟨i, hi, hopen⟩
  | skips _ _ ih => exact ih (Nat.mod_lt _ (by decide))

/-- A search inside the table comes to every terminal. -/
theorem exists_of_opened {t : Nat} (ht : top t ≠ ttyUnopened) (d : Nat) :
    ∀ {i : Nat}, i < maxTty → (i + d) % maxTty = t →
      ∃ l, Search top i l ∧ ∀ x ∈ l, x < maxTty := by
  induction d with
  | zero =>
      intro i hi heq
      rw [Nat.add_zero, Nat.mod_eq_of_lt hi] at heq
      subst heq
      exact ⟨[i], .found ht, fun x hx ↦ by rwa [List.mem_singleton.mp hx]⟩
  | succ d ih =>
      intro i hi heq
      by_cases hopen : top i = ttyUnopened
      · obtain ⟨l, hl, hlt⟩ := ih (i := (i + 1) % maxTty) (Nat.mod_lt _ (by decide)) (by
          rw [Nat.mod_add_mod, Nat.add_assoc, Nat.add_comm 1 d, heq])
        refine ⟨i :: l, .skips hopen hl, fun x hx ↦ ?_⟩
        rcases List.mem_cons.mp hx with rfl | hx
        · exact hi
        · exact hlt x hx
      · exact ⟨[i], .found hopen, fun x hx ↦ by rwa [List.mem_singleton.mp hx]⟩

end Search

/-- `get_next_process` is safe on a tick in this state: whatever follows `tty_top_pid` in
memory, its search loop ends, and it reads the table at its own indices only. -/
def TimerSafe (k : Kernel) (f : Frame) : Prop :=
  ∀ beyond : Nat → Nat, ∃ l,
    Search (fun i ↦ if i < maxTty then k.ttyTopPid i else beyond i)
      ((k.pcbs (getPcb f.esp)).tty + 1) l ∧
    ∀ i ∈ l, i < maxTty

/-- A tick is safe exactly if the running process is not on the last terminal, and some
terminal is opened. -/
theorem timerSafe_iff {k : Kernel} {f : Frame} :
    TimerSafe k f ↔ (k.pcbs (getPcb f.esp)).tty + 1 < maxTty ∧ k.openedTtys ≠ [] := by
  constructor
  · intro h
    obtain ⟨l, hl, hlt⟩ := h fun _ ↦ 0
    have hstart := hlt _ hl.start_mem
    obtain ⟨t, ht, hopen⟩ := hl.exists_opened hstart
    rw [if_pos ht] at hopen
    exact ⟨hstart, List.ne_nil_of_mem (Kernel.mem_openedTtys.mpr ⟨ht, hopen⟩)⟩
  · rintro ⟨hstart, hne⟩ beyond
    obtain ⟨t, ht⟩ := List.exists_mem_of_ne_nil _ hne
    obtain ⟨htlt, hopen⟩ := Kernel.mem_openedTtys.mp ht
    refine Search.exists_of_opened (t := t) (by rwa [if_pos htlt])
      (t + maxTty - ((k.pcbs (getPcb f.esp)).tty + 1)) hstart ?_
    rw [Nat.add_sub_cancel' (by omega), Nat.add_mod_right, Nat.mod_eq_of_lt htlt]

/-- The states of `entry` from `sti` to the call of `execute`: `n` of the three entries of
`tty_top_pid`, which start at zero, have been set to `TTY_UNOPENED`. -/
def entryWindow (M : Machine) (b : BootState) (n : Nat) : Kernel :=
  { bootKernel M b with
    ttyTopPid := fun t ↦ if t < n then ttyUnopened else 0
    nextOneIsRootShell := false }

theorem openedTtys_entryWindow (M : Machine) (b : BootState) {n : Nat} (hn : n ≤ maxTty) :
    (entryWindow M b n).openedTtys ≠ [] ↔ n < maxTty := by
  constructor
  · intro hne
    obtain ⟨t, ht⟩ := List.exists_mem_of_ne_nil _ hne
    obtain ⟨hlt, hopen⟩ := Kernel.mem_openedTtys.mp ht
    by_contra hge
    exact hopen (if_pos (by omega))
  · intro hlt
    refine List.ne_nil_of_mem (Kernel.mem_openedTtys.mpr ⟨hlt, ?_⟩)
    simp only [entryWindow, Nat.lt_irrefl, if_false, ttyUnopened]
    decide

/-- **When the timer handler is safe**, in every state in which the PIT can interrupt.
Between `sti` and the call of `execute` in `entry`, it is safe if and only if not all of
`tty_top_pid` is set yet and the memory where `get_pcb` looks for a PCB does not name the
last terminal; once the shell is asked for, never.  In every state of every run after
that, it is safe if and only if the process that `get_pcb` finds is not on the last
terminal: the running one, or its parent while `execute` is still on the parent's stack. -/
theorem timer_safe_iff (M : Machine) (hM : M.HasShell) (b : BootState) :
    (∀ n f, n ≤ maxTty → (TimerSafe (entryWindow M b n) f ↔
      (b.pcbs (getPcb f.esp)).tty + 1 < maxTty ∧ n < maxTty)) ∧
    (∀ f, ¬ TimerSafe (bootKernel M b) f) ∧
    ∃ k₀, boot M b = some k₀ ∧
      ∀ es, Base.AllSteps (next M) (fun k e ↦ e.Valid k) k₀ es →
        ∃ k, Base.exec (next M) k₀ es = some k ∧
          ∀ f, TimerSafe k f ↔ (k.pcbs (getPcb f.esp)).tty + 1 < maxTty := by
  refine ⟨fun n f hn ↦ ?_, fun f hsafe ↦ ?_, ?_⟩
  · rw [timerSafe_iff, openedTtys_entryWindow M b hn]
    rfl
  · exact (timerSafe_iff.mp hsafe).2 rfl
  · obtain ⟨k₀, hboot, h₀⟩ := Designated.boot hM b
    refine ⟨k₀, hboot, fun es hes ↦ ?_⟩
    obtain ⟨k, hexec, hk⟩ := h₀.exec hM hes
    refine ⟨k, hexec, fun f ↦ ?_⟩
    have hne : k.openedTtys ≠ [] := List.ne_nil_of_mem hk.tty_opened
    rw [timerSafe_iff, and_iff_left hne]

/-- The second terminal is opened; it is not the last one. -/
theorem timer_safe_iff_second :
    ∃ k₀ k, boot tinyMachine tinyBoot = some k₀ ∧
      Base.exec (next tinyMachine) k₀ [tinyEvent 0 (.switchToTty 1)] = some k ∧
      TimerSafe k (tinyEvent 1 (.tick 0)).frame := by
  obtain ⟨_, _, k₀, hboot, hrun⟩ := timer_safe_iff tinyMachine tinyMachine_hasShell tinyBoot
  have hcheck : (boot tinyMachine tinyBoot).all fun k ↦ Base.checkSteps (next tinyMachine)
      (fun k e ↦ decide (e.Valid k)) k [tinyEvent 0 (.switchToTty 1)] := by decide
  have htty : (boot tinyMachine tinyBoot).all fun k ↦
      (Base.exec (next tinyMachine) k [tinyEvent 0 (.switchToTty 1)]).all fun k ↦
        decide ((k.pcbs (getPcb (tinyEvent 1 (.tick 0)).frame.esp)).tty + 1 < maxTty) := by decide
  rw [hboot, Option.all_some] at hcheck htty
  obtain ⟨k, hexec, hiff⟩ := hrun _
    (Base.AllSteps.of_decide hcheck)
  rw [hexec, Option.all_some, decide_eq_true_eq] at htty
  exact ⟨k₀, k, hboot, hexec, (hiff _).mpr htty⟩

/-- On the last terminal the search starts past the end of the table; and before the first
shell it does not end. -/
theorem timer_not_safe :
    (∃ k₀ k, boot tinyMachine tinyBoot = some k₀ ∧
      Base.AllSteps (next tinyMachine) (fun k e ↦ e.Valid k) k₀ [tinyEvent 0 (.switchToTty 2)] ∧
      Base.exec (next tinyMachine) k₀ [tinyEvent 0 (.switchToTty 2)] = some k ∧
      (tinyEvent 1 (.tick 0)).Valid k ∧ (k.pcbs k.current).tty = 2 ∧
      ¬ TimerSafe k (tinyEvent 1 (.tick 0)).frame) ∧
    ¬ ∃ l, Search (bootKernel tinyMachine tinyBoot).ttyTopPid 1 l := by
  refine ⟨⟨_, _, rfl, ?_, rfl, by decide, by decide, fun h ↦ ?_⟩, ?_⟩
  · exact Base.AllSteps.of_decide rfl
  · exact absurd (timerSafe_iff.mp h).1 (by decide)
  · rintro ⟨l, hl⟩
    obtain ⟨t, _, hopen⟩ := hl.exists_opened (by decide)
    exact hopen rfl

end Illinix
