import Mathlib.Data.List.DropRight

/-!
# Reports on the pieces of a text

A text is cut into pieces at a separator, and `report sep r l` is what a function `r` says about
each piece of `l`, in order.  Reporting can be done part by part if the parts are divided at a
separator (`report_append_cons`).  `report_cut` says what happens elsewhere: only the piece at the
cut is reported in two parts.
-/

namespace Illinix.Base

universe u v

variable {α : Type u} {β : Type v} [DecidableEq α] (sep : α) (r : List α → List β)

/-- What `r` says about the pieces of a text. -/
def report (l : List α) : List β := (l.splitOn sep).flatMap r

variable {sep r}

theorem report_of_notMem {l : List α} (h : sep ∉ l) : report sep r l = r l := by
  rw [report, List.splitOn_eq_singleton h, List.flatMap_singleton]

theorem report_append_cons (a b : List α) :
    report sep r (a ++ sep :: b) = report sep r a ++ report sep r b := by
  rw [report, List.splitOn_append_cons_self, List.flatMap_append, report, report]

/-- A part that ends with a separator, where nothing is said about the empty piece behind it. -/
theorem report_append_of_getLast? {l : List α} (h : l.getLast? = some sep) (hr : r [] = [])
    (l' : List α) : report sep r (l ++ l') = report sep r l ++ report sep r l' := by
  obtain ⟨a, rfl⟩ := List.getLast?_eq_some_iff.mp h
  rw [List.append_assoc, List.singleton_append, report_append_cons, report_append_cons,
    report_of_notMem List.not_mem_nil, hr, List.append_nil]

/-- A report on some of the pieces only. -/
theorem report_ite (p : List α → Bool) (f : List α → List β) (l : List α) :
    report sep (fun a ↦ if p a then f a else []) l = ((l.splitOn sep).filter p).flatMap f := by
  rw [report]
  induction l.splitOn sep with
  | nil => rfl
  | cons a pieces ih =>
      rw [List.flatMap_cons, ih, List.filter_cons]
      split
      · rw [List.flatMap_cons]
      · rw [List.nil_append]

/-! ## The piece at a cut -/

theorem notMem_takeWhile (sep : α) (l : List α) : sep ∉ l.takeWhile (· ≠ sep) := by
  intro h
  have hne := List.mem_takeWhile_imp h
  exact of_decide_eq_true hne rfl

theorem notMem_rtakeWhile (sep : α) (l : List α) : sep ∉ l.rtakeWhile (· ≠ sep) := by
  intro h
  have hne := List.mem_rtakeWhile_imp h
  exact of_decide_eq_true hne rfl

theorem forall_ne_of_notMem {sep : α} {l : List α} (h : sep ∉ l) :
    ∀ x ∈ l, decide (x ≠ sep) = true := fun _ hx ↦ decide_eq_true fun heq ↦ h (heq ▸ hx)

theorem takeWhile_of_notMem {sep : α} {l : List α} (h : sep ∉ l) : l.takeWhile (· ≠ sep) = l :=
  List.takeWhile_eq_self_iff.mpr (forall_ne_of_notMem h)

theorem takeWhile_append_cons {sep : α} {l : List α} (h : sep ∉ l) (l' : List α) :
    (l ++ sep :: l').takeWhile (· ≠ sep) = l := by
  rw [List.takeWhile_append_of_pos (forall_ne_of_notMem h), List.takeWhile_cons, if_neg (by simp),
    List.append_nil]

theorem rtakeWhile_ne_nil {sep : α} {l : List α} (h : l ≠ []) (hend : l.getLast? ≠ some sep) :
    l.rtakeWhile (· ≠ sep) ≠ [] := by
  intro hnil
  have hlast := List.rtakeWhile_eq_nil_iff.mp hnil h
  rw [decide_eq_true_iff, not_not] at hlast
  exact hend (hlast ▸ List.getLast?_eq_some_getLast h)

/-- The piece that a text starts with, and the rest. -/
theorem eq_takeWhile_or (sep : α) (l : List α) :
    l = l.takeWhile (· ≠ sep) ∨ ∃ l', l = l.takeWhile (· ≠ sep) ++ sep :: l' := by
  induction l with
  | nil => exact .inl rfl
  | cons x l ih =>
      by_cases hx : x = sep
      · right
        refine ⟨l, ?_⟩
        rw [List.takeWhile_cons_of_neg (by simp [hx]), List.nil_append, hx]
      · rw [List.takeWhile_cons_of_pos (by simp [hx])]
        rcases ih with h | ⟨l', h⟩
        · exact .inl (congrArg (x :: ·) h)
        · exact .inr ⟨l', congrArg (x :: ·) h⟩

/-- The piece that a text ends with, and what is before it. -/
theorem eq_rtakeWhile_or (sep : α) (l : List α) :
    l = l.rtakeWhile (· ≠ sep) ∨ ∃ l', l = l' ++ sep :: l.rtakeWhile (· ≠ sep) := by
  rcases eq_takeWhile_or sep l.reverse with h | ⟨l', h⟩
  · left
    have hrev := congrArg List.reverse h
    rwa [List.reverse_reverse] at hrev
  · right
    have hrev := congrArg List.reverse h
    rw [List.reverse_reverse, List.reverse_append, List.reverse_cons, List.append_assoc,
      List.singleton_append] at hrev
    exact ⟨l'.reverse, hrev⟩

/-- What follows a text only joins its last piece. -/
theorem report_append_left (sep : α) (r : List α → List β) (l : List α) :
    ∃ u, ∀ x, report sep r (l ++ x) = u ++ report sep r (l.rtakeWhile (· ≠ sep) ++ x) := by
  rcases eq_rtakeWhile_or sep l with h | ⟨l', h⟩
  · refine ⟨[], fun x ↦ ?_⟩
    rw [← h, List.nil_append]
  · refine ⟨report sep r l', fun x ↦ ?_⟩
    conv_lhs => rw [h, List.append_assoc, List.cons_append, report_append_cons]

/-- What is in front of a text only joins its first piece. -/
theorem report_append_right (sep : α) (r : List α → List β) (l : List α) :
    ∃ v, ∀ x, sep ∉ x → report sep r (x ++ l) = r (x ++ l.takeWhile (· ≠ sep)) ++ v := by
  have hjoin : ∀ x, sep ∉ x → sep ∉ x ++ l.takeWhile (· ≠ sep) := fun x hx hmem ↦
    (List.mem_append.mp hmem).elim hx (notMem_takeWhile sep l)
  rcases eq_takeWhile_or sep l with h | ⟨l', h⟩
  · refine ⟨[], fun x hx ↦ ?_⟩
    have hreport := report_of_notMem (r := r) (hjoin x hx)
    rw [← h] at hreport
    rw [List.append_nil, ← h]
    exact hreport
  · refine ⟨report sep r l', fun x hx ↦ ?_⟩
    conv_lhs => rw [h, ← List.append_assoc, report_append_cons, report_of_notMem (hjoin x hx)]

/-- A text that is cut in two anywhere. -/
theorem report_cut (sep : α) (r : List α → List β) (l l' : List α) :
    ∃ u v, report sep r l = u ++ r (l.rtakeWhile (· ≠ sep)) ∧
      report sep r l' = r (l'.takeWhile (· ≠ sep)) ++ v ∧
      report sep r (l ++ l') =
        u ++ (r (l.rtakeWhile (· ≠ sep) ++ l'.takeWhile (· ≠ sep)) ++ v) := by
  obtain ⟨u, hu⟩ := report_append_left sep r l
  obtain ⟨v, hv⟩ := report_append_right sep r l'
  have hl := hu []
  rw [List.append_nil, List.append_nil, report_of_notMem (notMem_rtakeWhile sep l)] at hl
  refine ⟨u, v, hl, hv [] List.not_mem_nil, ?_⟩
  rw [hu, hv _ (notMem_rtakeWhile sep l)]

/-- The piece at the cut. -/
theorem cut_mem_splitOn (sep : α) (l l' : List α) :
    l.rtakeWhile (· ≠ sep) ++ l'.takeWhile (· ≠ sep) ∈ (l ++ l').splitOn sep := by
  obtain ⟨u, v, -, -, h⟩ := report_cut sep (fun x ↦ [x]) l l'
  rw [report, List.flatMap_singleton'] at h
  rw [h]
  exact List.mem_append_right u (List.mem_append_left v (List.mem_singleton_self _))

/-- A part of a text without a separator is a part of one piece. -/
theorem exists_infix_mem_splitOn {sep : α} {a l : List α} (h : a <:+: l) (ha : sep ∉ a) :
    ∃ x ∈ l.splitOn sep, a <:+: x := by
  obtain ⟨l₁, l₂, rfl⟩ := h
  refine ⟨_, List.append_assoc l₁ a l₂ ▸ cut_mem_splitOn sep l₁ (a ++ l₂), ?_⟩
  rw [List.takeWhile_append_of_pos (forall_ne_of_notMem ha)]
  exact List.infix_append' _ _ _

end Illinix.Base
