import Illinix.Base.Links

/-!
# Parent chains

A table of parent pointers is a function `parent : α → α`; a *root* is a fixed
point.  `Chain parent a l` says that following `parent` from `a` reaches a root,
and that `l` lists what is visited on the way, `a` first and the root last.

With the link of a root taken to be null this is a list of links
(`chain_iff_links`), so a chain is determined by where it starts, and never visits
anything twice.  `Chain.push` and `Chain.pop` are what a stack discipline on the
pointers needs: a new element in front whose parent is the old top, and the
removal of the top.
-/

namespace Illinix.Base

universe u

variable {α : Type u} {parent parent' : α → α}

/-- `l` lists the elements from `a` up to the root above it. -/
inductive Chain (parent : α → α) : α → List α → Prop
  | /-- A root is its own parent. -/
    root {a : α} : parent a = a → Chain parent a [a]
  | /-- One step up. -/
    link {a b : α} {l : List α} : parent a = b → b ≠ a → Chain parent b l →
      Chain parent a (a :: l)

open Classical in
/-- The link to the parent, null at a root. -/
noncomputable def parentLink (parent : α → α) (a : α) : Option α :=
  if parent a = a then none else some (parent a)

theorem parentLink_root {a : α} (h : parent a = a) : parentLink parent a = none := if_pos h

theorem parentLink_of_ne {a : α} (h : parent a ≠ a) : parentLink parent a = some (parent a) :=
  if_neg h

theorem chain_iff_links {a : α} {l : List α} :
    Chain parent a l ↔ Links (parentLink parent) (some a) l := by
  constructor
  · intro h
    induction h with
    | root hr =>
        refine .cons ?_
        rw [parentLink_root hr]
        exact .nil
    | link hp hne _ ih =>
        refine .cons ?_
        rwa [parentLink_of_ne (hp ▸ hne), hp]
  · intro h
    generalize ha : some a = p at h
    induction h generalizing a with
    | nil => cases ha
    | @cons b l h ih =>
        obtain rfl : a = b := Option.some.inj ha
        by_cases hr : parent a = a
        · rw [parentLink_root hr] at h
          cases h
          exact .root hr
        · exact .link rfl hr (ih (parentLink_of_ne hr).symm)

namespace Chain

theorem exists_tail {a : α} {l : List α} (h : Chain parent a l) : ∃ l', l = a :: l' := by
  cases h with
  | root _ => exact ⟨[], rfl⟩
  | link _ _ _ => exact ⟨_, rfl⟩

theorem head_mem {a : α} {l : List α} (h : Chain parent a l) : a ∈ l := by
  obtain ⟨l', rfl⟩ := h.exists_tail
  exact List.mem_cons_self

/-- Where a chain starts determines it. -/
theorem unique {a : α} {l l' : List α} (h : Chain parent a l) (h' : Chain parent a l') :
    l = l' := (chain_iff_links.mp h).unique (chain_iff_links.mp h')

/-- A chain only depends on the pointers of its own elements. -/
theorem congr {a : α} {l : List α} (h : Chain parent a l)
    (heq : ∀ x ∈ l, parent' x = parent x) : Chain parent' a l := by
  induction h with
  | root hr => exact .root ((heq _ (List.mem_cons_self)).trans hr)
  | link hp hne _ ih =>
      refine .link ((heq _ (List.mem_cons_self)).trans hp) hne (ih fun x hx ↦ ?_)
      exact heq x (List.mem_cons_of_mem _ hx)

/-- The chain of any element of a chain is a suffix of it. -/
theorem suffix_of_mem {a x : α} {l : List α} (h : Chain parent a l) (hx : x ∈ l) :
    ∃ l', Chain parent x l' ∧ l' <:+ l := by
  obtain ⟨l', hl', hs⟩ := (chain_iff_links.mp h).suffix_of_mem hx
  exact ⟨l', chain_iff_links.mpr hl', hs⟩

/-- A chain visits nothing twice. -/
theorem nodup {a : α} {l : List α} (h : Chain parent a l) : l.Nodup := (chain_iff_links.mp h).nodup

theorem head_notMem_tail {a b : α} {l : List α} (hp : parent a = b) (hne : b ≠ a)
    (h : Chain parent b l) : a ∉ l := (List.nodup_cons.mp (nodup (.link hp hne h))).1

theorem parent_mem {a x : α} {l : List α} (h : Chain parent a l) (hx : x ∈ l) :
    parent x ∈ l := by
  induction h with
  | root hr =>
      rw [List.mem_singleton] at hx
      rw [hx, hr]
      exact List.mem_cons_self
  | @link a b l hp _ hc ih =>
      rcases List.mem_cons.mp hx with rfl | hx
      · rw [hp]
        exact List.mem_cons_of_mem _ hc.head_mem
      · exact List.mem_cons_of_mem _ (ih hx)

/-- A chain ends at a root. -/
theorem parent_getLast {a r : α} {l : List α} (h : Chain parent a l) (hr : l.getLast? = some r) :
    parent r = r := by
  induction h with
  | root hroot =>
      cases hr
      exact hroot
  | link _ _ hc ih =>
      obtain ⟨l', rfl⟩ := hc.exists_tail
      rw [List.getLast?_cons_cons] at hr
      exact ih hr

/-- The top of a chain is the parent of no other element of it. -/
theorem eq_head_of_parent_eq {a x : α} {l : List α} (h : Chain parent a l) (hx : x ∈ l)
    (hpx : parent x = a) : x = a := by
  cases h with
  | root _ => exact List.mem_singleton.mp hx
  | link hp hne hc =>
      rcases List.mem_cons.mp hx with rfl | hx
      · rfl
      · exact absurd (hpx ▸ hc.parent_mem hx) (head_notMem_tail hp hne hc)

/-- Putting a new element on top, in a table that agrees on the old chain. -/
theorem push {a b : α} {l : List α} (h : Chain parent b l) (ha : a ∉ l)
    (hp : parent' a = b) (heq : ∀ x ∈ l, parent' x = parent x) :
    Chain parent' a (a :: l) := by
  refine .link hp (fun hba ↦ ha ?_) (h.congr heq)
  rw [← hba]
  exact h.head_mem

/-- Removing the top of a chain that does not start at a root. -/
theorem pop {a : α} {l : List α} (h : Chain parent a l) (hne : parent a ≠ a) :
    ∃ l', l = a :: l' ∧ Chain parent (parent a) l' := by
  cases h with
  | root hr => exact absurd hr hne
  | link hp _ hc => exact ⟨_, rfl, hp ▸ hc⟩

theorem eq_singleton_of_root {a : α} {l : List α} (h : Chain parent a l) (hr : parent a = a) :
    l = [a] := h.unique (.root hr)

end Chain

end Illinix.Base
