import Mathlib.Data.Fintype.Card
import Mathlib.Data.List.Nodup
import Mathlib.Logic.Function.Basic

/-!
# Null-terminated lists of links

A table of nullable links is a function `next : α → Option α`.  `Links next p l` says that following
the links from `p` reaches a null link, and that `l` lists what is visited on the way.

Where a walk starts determines it (`Links.unique`), so one that ends visits nothing twice
(`Links.nodup`).  The two edits of a list are `Links.prepend` and `Links.unlink`.  For the second
the head of the list counts as a link as well: a *place* is the head, `none`, or the link of an
element, and `prior a p l` is the place whose link leads to `a`.
-/

namespace Illinix.Base

universe u

variable {α : Type u} {next next' : α → Option α}

/-- `l` lists the elements from `p` up to the null link. -/
inductive Links (next : α → Option α) : Option α → List α → Prop
  | nil : Links next none []
  | cons {a : α} {l : List α} : Links next (next a) l → Links next (some a) (a :: l)

namespace Links

variable {p : Option α} {l l' : List α}

theorem unique (h : Links next p l) (h' : Links next p l') : l = l' := by
  induction h generalizing l' with
  | nil =>
      cases h'
      rfl
  | cons _ ih =>
      cases h' with
      | cons h' => rw [ih h']

/-- A list only depends on the links of its own elements. -/
theorem congr (h : Links next p l) (heq : ∀ a ∈ l, next' a = next a) : Links next' p l := by
  induction h with
  | nil => exact .nil
  | cons _ ih =>
      refine .cons ?_
      rw [heq _ List.mem_cons_self]
      exact ih fun b hb ↦ heq b (List.mem_cons_of_mem _ hb)

/-- The list from an element of a list is a suffix of it. -/
theorem suffix_of_mem {a : α} (h : Links next p l) (ha : a ∈ l) :
    ∃ l', Links next (some a) l' ∧ l' <:+ l := by
  induction h with
  | nil => cases ha
  | @cons b l hl ih =>
      rcases List.mem_cons.mp ha with rfl | ha
      · exact ⟨_, .cons hl, List.suffix_rfl⟩
      · obtain ⟨l', hl', hs⟩ := ih ha
        exact ⟨l', hl', hs.trans (List.suffix_cons b l)⟩

theorem head_notMem_tail {a : α} (h : Links next (next a) l) : a ∉ l := by
  intro ha
  obtain ⟨l', hl', hs⟩ := h.suffix_of_mem ha
  have hlen := hs.length_le
  rw [hl'.unique (.cons h), List.length_cons] at hlen
  omega

/-- A list visits nothing twice. -/
theorem nodup (h : Links next p l) : l.Nodup := by
  induction h with
  | nil => exact List.nodup_nil
  | cons h ih => exact List.nodup_cons.mpr ⟨h.head_notMem_tail, ih⟩

/-- A list is no longer than the table. -/
theorem length_le_card [Fintype α] (h : Links next p l) : l.length ≤ Fintype.card α :=
  h.nodup.length_le_card

/-- A new element in front, in a table that agrees on the old list. -/
theorem prepend {a : α} (h : Links next p l) (ha : next' a = p)
    (heq : ∀ b ∈ l, next' b = next b) : Links next' (some a) (a :: l) := by
  refine .cons ?_
  rw [ha]
  exact h.congr heq

end Links

/-! ## Unlinking -/

variable [DecidableEq α]

/-- The place whose link leads to `a`, in a list that starts at the place `p`. -/
def prior (a : α) : Option α → List α → Option α
  | p, [] => p
  | p, b :: l => if b = a then p else prior a (some b) l

theorem prior_eq_or (a : α) (p : Option α) (l : List α) :
    prior a p l = p ∨ ∃ b ∈ l, prior a p l = some b := by
  induction l generalizing p with
  | nil => exact .inl rfl
  | cons b l ih =>
      rw [prior]
      split
      · exact .inl rfl
      · rcases ih (some b) with heq | ⟨c, hc, heq⟩
        · exact .inr ⟨b, List.mem_cons_self, heq⟩
        · exact .inr ⟨c, List.mem_cons_of_mem _ hc, heq⟩

variable {link : Option α → Option α}

/-- **Unlinking.**  The link that leads to an element is made to lead past it. -/
theorem Links.unlink {a : α} {p : Option α} {l : List α}
    (h : Links (fun b ↦ link (some b)) (link p) l) (hp : ∀ b ∈ l, p ≠ some b) (ha : a ∈ l) :
    Links (fun b ↦ Function.update link (prior a p l) (link (some a)) (some b))
      (Function.update link (prior a p l) (link (some a)) p) (l.erase a) := by
  induction l generalizing p with
  | nil => cases ha
  | cons b l ih =>
      generalize hhead : link p = q at h
      cases h with
      | cons h =>
        by_cases hab : b = a
        · subst hab
          rw [prior, if_pos rfl, List.erase_cons_head, Function.update_self]
          refine h.congr fun c hc ↦ ?_
          exact Function.update_of_ne (hp c (List.mem_cons_of_mem _ hc)).symm _ _
        · have hmem : a ∈ l := (List.mem_cons.mp ha).resolve_left (Ne.symm hab)
          have hnotMem : b ∉ l := h.head_notMem_tail
          have hrest := ih h (fun c hc hbc ↦ hnotMem (Option.some.inj hbc ▸ hc)) hmem
          rw [prior, if_neg hab, List.erase_cons_tail (by rwa [beq_iff_eq])]
          -- the place that changes is behind `p`, which still leads to `b`
          have hplace : prior a (some b) l ≠ p := by
            intro heq
            rcases prior_eq_or a (some b) l with hb | ⟨c, hc, hb⟩
            · exact hp b List.mem_cons_self (heq.symm.trans hb)
            · exact hp c (List.mem_cons_of_mem _ hc) (heq.symm.trans hb)
          rw [Function.update_of_ne hplace.symm, hhead]
          exact .cons hrest

end Illinix.Base
