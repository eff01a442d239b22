import Illinix.Process.Kernel
import Mathlib.Data.List.Nodup

/-!
# Terminals as stacks of processes

What the process table is for: each of the three terminals holds a stack of processes,
a program on top of the shell that started it, and one terminal is in front.  Starting a
program pushes, ending it pops, and ending the last one starts the terminal over.

`Terminals` is this picture, without PCBs, stack pointers or page tables, and `Valid`
is what holds in it at all times.  `lost` are the process numbers that are neither free
nor on a terminal: a program that faults while it is loaded leaves one behind.
-/

namespace Illinix

/-- The stacks of the terminals, top first; a terminal that is not opened has none. -/
structure Terminals where
  stack : Nat → List Nat
  active : Nat
  lost : Nat → Prop

namespace Terminals

/-- A process number that cannot be given out. -/
def Used (d : Terminals) (p : Nat) : Prop := (∃ t, p ∈ d.stack t) ∨ d.lost p

/-- Replacing the stack of one terminal, which comes to the front. -/
def set (d : Terminals) (t : Nat) (l : List Nat) : Terminals :=
  { d with stack := Function.update d.stack t l, active := t }

/-- A program starts in front. -/
def push (d : Terminals) (q : Nat) : Terminals := d.set d.active (q :: d.stack d.active)

/-- The program in front ends. -/
def pop (d : Terminals) : Terminals := d.set d.active (d.stack d.active).tail

/-- Another terminal comes to the front. -/
def focus (d : Terminals) (t : Nat) : Terminals := { d with active := t }

/-- A process number goes missing. -/
def lose (d : Terminals) (q : Nat) : Terminals := { d with lost := fun p ↦ d.lost p ∨ p = q }

/-- What holds of the terminals at all times. -/
structure Valid (d : Terminals) : Prop where
  active_lt : d.active < maxTty
  active_ne : d.stack d.active ≠ []
  stack_lt : ∀ t, d.stack t ≠ [] → t < maxTty
  lt : ∀ t p, p ∈ d.stack t → p < maxNumProcesses
  nodup : ∀ t, (d.stack t).Nodup
  disjoint : ∀ t t' p, p ∈ d.stack t → p ∈ d.stack t' → t = t'
  lost : ∀ t p, p ∈ d.stack t → ¬ d.lost p
  lost_lt : ∀ p, d.lost p → p < maxNumProcesses
  zero : ∃ t, (d.stack t).getLast? = some 0

variable {d : Terminals}

theorem set_stack_self (t : Nat) (l : List Nat) : (d.set t l).stack t = l :=
  Function.update_self ..

theorem set_stack_of_ne {t t' : Nat} (l : List Nat) (h : t' ≠ t) :
    (d.set t l).stack t' = d.stack t' := Function.update_of_ne h ..

/-- The numbers in use after a change of one stack. -/
theorem used_set {t p : Nat} {l : List Nat} :
    (d.set t l).Used p ↔ p ∈ l ∨ (∃ t', t' ≠ t ∧ p ∈ d.stack t') ∨ d.lost p := by
  constructor
  · rintro (⟨t', ht'⟩ | hl)
    · by_cases htt : t' = t
      · subst htt
        rw [set_stack_self] at ht'
        exact Or.inl ht'
      · rw [set_stack_of_ne l htt] at ht'
        exact Or.inr (Or.inl ⟨t', htt, ht'⟩)
    · exact Or.inr (Or.inr hl)
  · rintro (hp | ⟨t', htt, ht'⟩ | hl)
    · exact Or.inl ⟨t, by rwa [set_stack_self]⟩
    · exact Or.inl ⟨t', by rwa [set_stack_of_ne l htt]⟩
    · exact Or.inr hl

theorem used_push {q p : Nat} : (d.push q).Used p ↔ p = q ∨ d.Used p := by
  rw [push, used_set, List.mem_cons, or_assoc]
  refine or_congr_right ⟨?_, ?_⟩
  · rintro (hp | ⟨t', _, hp⟩ | hp)
    · exact Or.inl ⟨_, hp⟩
    · exact Or.inl ⟨t', hp⟩
    · exact Or.inr hp
  · rintro (⟨t', hp⟩ | hp)
    · by_cases htt : t' = d.active
      · exact Or.inl (htt ▸ hp)
      · exact Or.inr (Or.inl ⟨t', htt, hp⟩)
    · exact Or.inr (Or.inr hp)

namespace Valid

/-- Replacing a stack by one that holds its own processes and unused ones. -/
theorem set (h : d.Valid) {t : Nat} {l : List Nat} (ht : t < maxTty) (hl : l ≠ [])
    (hlt : ∀ p ∈ l, p < maxNumProcesses) (hnodup : l.Nodup)
    (hfresh : ∀ p ∈ l, p ∈ d.stack t ∨ ¬ d.Used p)
    (hzero : (d.stack t).getLast? = some 0 → l.getLast? = some 0) : (d.set t l).Valid := by
  have hother : ∀ t' p, t' ≠ t → p ∈ l → p ∉ d.stack t' := by
    intro t' p htt hp hp'
    rcases hfresh p hp with hmem | hun
    · exact htt (h.disjoint t' t p hp' hmem)
    · exact hun (Or.inl ⟨t', hp'⟩)
  constructor
  case active_lt => exact ht
  case active_ne => rwa [show (d.set t l).active = t from rfl, set_stack_self]
  case stack_lt =>
    intro t' hne
    by_cases htt : t' = t
    · rwa [htt]
    · rw [set_stack_of_ne l htt] at hne
      exact h.stack_lt t' hne
  case lt =>
    intro t' p hp
    by_cases htt : t' = t
    · subst htt
      rw [set_stack_self] at hp
      exact hlt p hp
    · rw [set_stack_of_ne l htt] at hp
      exact h.lt t' p hp
  case nodup =>
    intro t'
    by_cases htt : t' = t
    · subst htt
      rwa [set_stack_self]
    · rw [set_stack_of_ne l htt]
      exact h.nodup t'
  case disjoint =>
    intro t₁ t₂ p h₁ h₂
    by_cases htt₁ : t₁ = t <;> by_cases htt₂ : t₂ = t
    · rw [htt₁, htt₂]
    · subst htt₁
      rw [set_stack_self] at h₁
      rw [set_stack_of_ne l htt₂] at h₂
      exact absurd h₂ (hother t₂ p htt₂ h₁)
    · subst htt₂
      rw [set_stack_self] at h₂
      rw [set_stack_of_ne l htt₁] at h₁
      exact absurd h₁ (hother t₁ p htt₁ h₂)
    · rw [set_stack_of_ne l htt₁] at h₁
      rw [set_stack_of_ne l htt₂] at h₂
      exact h.disjoint t₁ t₂ p h₁ h₂
  case lost =>
    intro t' p hp hlost
    by_cases htt : t' = t
    · subst htt
      rw [set_stack_self] at hp
      rcases hfresh p hp with hmem | hun
      · exact h.lost t' p hmem hlost
      · exact hun (Or.inr hlost)
    · rw [set_stack_of_ne l htt] at hp
      exact h.lost t' p hp hlost
  case lost_lt => exact h.lost_lt
  case zero =>
    obtain ⟨t₀, h₀⟩ := h.zero
    by_cases htt : t₀ = t
    · subst htt
      exact ⟨t₀, by rw [set_stack_self]; exact hzero h₀⟩
    · exact ⟨t₀, by rwa [set_stack_of_ne l htt]⟩

theorem push (h : d.Valid) {q : Nat} (hq : q < maxNumProcesses) (hun : ¬ d.Used q) :
    (d.push q).Valid := by
  refine h.set h.active_lt (List.cons_ne_nil _ _) ?_ ?_ ?_ ?_
  · intro p hp
    rcases List.mem_cons.mp hp with rfl | hp
    · exact hq
    · exact h.lt _ p hp
  · exact List.nodup_cons.mpr ⟨fun hmem ↦ hun (Or.inl ⟨_, hmem⟩), h.nodup _⟩
  · intro p hp
    rcases List.mem_cons.mp hp with rfl | hp
    · exact Or.inr hun
    · exact Or.inl hp
  · intro hlast
    obtain ⟨p, l, hpl⟩ := List.exists_cons_of_ne_nil h.active_ne
    rw [hpl] at hlast ⊢
    rwa [List.getLast?_cons_cons]

/-- A terminal is opened, or started over, with one process. -/
theorem setSingle (h : d.Valid) {t q : Nat} (ht : t < maxTty) (hq : q < maxNumProcesses)
    (hfresh : q ∈ d.stack t ∨ ¬ d.Used q) (hzero : (d.stack t).getLast? = some 0 → q = 0) :
    (d.set t [q]).Valid := by
  refine h.set ht (List.cons_ne_nil _ _) ?_ (List.nodup_singleton q) ?_ ?_
  · intro p hp
    rwa [List.mem_singleton.mp hp]
  · intro p hp
    rwa [List.mem_singleton.mp hp]
  · intro hlast
    rw [hzero hlast]
    rfl

theorem pop (h : d.Valid) {p p' : Nat} {l : List Nat} (hstack : d.stack d.active = p :: p' :: l) :
    (d.pop).Valid := by
  have hmem : ∀ x, x ∈ (d.stack d.active).tail → x ∈ d.stack d.active := fun x ↦
    List.mem_of_mem_tail
  refine h.set h.active_lt ?_ (fun x hx ↦ h.lt _ x (hmem x hx)) (h.nodup _).tail
    (fun x hx ↦ Or.inl (hmem x hx)) ?_
  · rw [hstack]
    exact List.cons_ne_nil _ _
  · intro hlast
    rw [hstack, List.getLast?_cons_cons] at hlast
    rwa [hstack]

/-- What is in use besides the processes of a terminal is none of them. -/
theorem used_of_other (h : d.Valid) {t p x : Nat} (hp : p ∈ d.stack t)
    (hx : (∃ t', t' ≠ t ∧ x ∈ d.stack t') ∨ d.lost x) : d.Used x ∧ x ≠ p := by
  rcases hx with ⟨t', htt, hx⟩ | hlost
  · refine ⟨Or.inl ⟨t', hx⟩, ?_⟩
    rintro rfl
    exact htt (h.disjoint _ _ x hx hp)
  · refine ⟨Or.inr hlost, ?_⟩
    rintro rfl
    exact h.lost _ x hp hlost

/-- Ending a program frees its number and no other. -/
theorem used_pop (h : d.Valid) {p x : Nat} {l : List Nat} (hstack : d.stack d.active = p :: l) :
    d.pop.Used x ↔ d.Used x ∧ x ≠ p := by
  have hp : p ∈ d.stack d.active := by rw [hstack]; exact List.mem_cons_self
  have hnodup := h.nodup d.active
  rw [hstack, List.nodup_cons] at hnodup
  rw [Terminals.pop, used_set, hstack, List.tail_cons]
  constructor
  · rintro (hx | hother)
    · refine ⟨Or.inl ⟨d.active, by rw [hstack]; exact List.mem_cons_of_mem _ hx⟩, ?_⟩
      rintro rfl
      exact hnodup.1 hx
    · exact h.used_of_other hp hother
  · rintro ⟨⟨t', hx⟩ | hlost, hxp⟩
    · by_cases htt : t' = d.active
      · rw [htt, hstack] at hx
        exact Or.inl ((List.mem_cons.mp hx).resolve_left hxp)
      · exact Or.inr (Or.inl ⟨t', htt, hx⟩)
    · exact Or.inr (Or.inr hlost)

/-- What is in use apart from the only process of a terminal. -/
theorem used_of_single (h : d.Valid) {t p x : Nat} (hstack : d.stack t = [p]) :
    (∃ t', t' ≠ t ∧ x ∈ d.stack t') ∨ d.lost x ↔ d.Used x ∧ x ≠ p := by
  have hp : p ∈ d.stack t := by rw [hstack]; exact List.mem_cons_self
  constructor
  · exact h.used_of_other hp
  · rintro ⟨⟨t', hx⟩ | hlost, hxp⟩
    · refine Or.inl ⟨t', ?_, hx⟩
      rintro rfl
      rw [hstack, List.mem_singleton] at hx
      exact hxp hx
    · exact Or.inr hlost

theorem focus (h : d.Valid) {t : Nat} (ht : d.stack t ≠ []) : (d.focus t).Valid :=
  ⟨h.stack_lt t ht, ht, h.stack_lt, h.lt, h.nodup, h.disjoint, h.lost, h.lost_lt, h.zero⟩

theorem lose (h : d.Valid) {q : Nat} (hq : q < maxNumProcesses) (hun : ¬ d.Used q) :
    (d.lose q).Valid := by
  refine ⟨h.active_lt, h.active_ne, h.stack_lt, h.lt, h.nodup, h.disjoint, ?_, ?_, h.zero⟩
  · rintro t p hp (hlost | rfl)
    · exact h.lost t p hp hlost
    · exact hun (Or.inl ⟨t, hp⟩)
  · rintro p (hlost | rfl)
    · exact h.lost_lt p hlost
    · exact hq

/-- Process 0 is always on some terminal. -/
theorem zero_used (h : d.Valid) : d.Used 0 := by
  obtain ⟨t, ht⟩ := h.zero
  exact Or.inl ⟨t, List.mem_of_getLast? ht⟩

end Valid

end Terminals

end Illinix
