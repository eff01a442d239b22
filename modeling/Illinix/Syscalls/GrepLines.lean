import Illinix.Base.Split
import Illinix.Syscalls.Grep

/-!
# The lines that `grep` reports

The inner loop leaves the buffer in one of three ways (`Swept`).  If the bytes in it end in a
newline, all lines were searched.  Otherwise the last one is moved down, or it is searched as if it
were complete: at the end of the file, but also if the byte behind the bytes happens to be a newline.
This byte is stale.  It does harm behind a full buffer only, and only once, since a NUL is stored
there (`exists_ready`, `exists_full`).

So `do_one_file` reports on the file in one part, or in two parts that are cut at the end of a block
(`Broken`).  The search has a flaw of its own: it compares a `char` with a `uint8_t`, and finds no
pattern that starts with a negative `char` (`Hits`).  `do_one_file_reports_iff` says when neither is
seen.
-/

namespace Illinix.Grep

open Base

variable {s fname : Bytes} {pat : List UInt8}

/-- What is written for a line. -/
def reported (name pat l : List UInt8) : List UInt8 :=
  if Hits pat l then name ++ 0x3a :: (l ++ [newline]) else []

theorem reported_nil (name : List UInt8) (hpat : pat ≠ []) : reported name pat [] = [] :=
  if_neg fun hhits ↦ hpat (List.infix_nil.mp hhits.2)

section Lines

variable (hs : s.Holds pat) (hpat : pat ≠ [])

include hs hpat

theorem searchLine_eq {g : Grep} {k : Nat} {l : List UInt8} (h : (g.data.at k).Reads l)
    (hne : ∀ x ∈ l, x ≠ 0) (hlen : l.length + 1 < 2 ^ 32) :
    searchLine s fname pat.length k (k + l.length) g =
      { g with
        data := Function.update g.data (k + l.length) 0
        out := g.out ++ reported (cstring fname) pat l } := by
  have hholds := h.holds_update hne
  have hcolon : cstring (.ofList [0x3a]) = [0x3a] := (cstring_ofList (by simp) (by decide)).2
  have hnewline : cstring (.ofList [newline]) = [newline] :=
    (cstring_ofList (by simp [newline]) (by decide)).2
  have hfound := search_eq_true_iff hs hpat hholds
  rw [searchLine, Nat.add_sub_cancel_left]
  dsimp only
  by_cases hhits : Hits pat l
  · rw [if_pos (hfound.mpr hhits), reported, if_pos hhits]
    simp only [fdputs, hcolon, hnewline, hholds.cstring_eq hlen, List.append_assoc,
      List.cons_append, List.nil_append]
  · rw [if_neg fun htrue ↦ hhits (hfound.mp htrue), reported, if_neg hhits, List.append_nil]

variable {g : Grep} {cnt fuel k : Nat} {l l' : List UInt8}

/-- A line with a newline behind it. -/
theorem lines_newline (h : (g.data.at k).Reads (l ++ newline :: l'))
    (hlast : g.last = k + (l ++ newline :: l').length) (hline : newline ∉ l) (hne : ∀ x ∈ l, x ≠ 0)
    (hlen : l.length + 1 < 2 ^ 32) :
    lines s fname pat.length cnt (fuel + 1) k g =
      let g' : Grep :=
        { g with
          data := Function.update g.data (k + l.length) 0
          out := g.out ++ reported (cstring fname) pat l }
      if l' = [] then some { g' with last := 0 }
      else lines s fname pat.length cnt fuel (k + l.length + 1) g' := by
  have hend : lineEnd g.data (g.last - k) k = k + l.length := by
    rw [hlast, Nat.add_sub_cancel_left, lineEnd_eq h, takeWhile_append_cons hline]
  have hbyte : g.data (k + l.length) = newline := h.right.head
  have hmore : k + l.length + 1 ≥ g.last ↔ l' = [] := by
    rw [hlast, List.length_append, List.length_cons, ← List.length_eq_zero_iff]
    omega
  rw [lines]
  dsimp only
  rw [hend, if_neg fun hcarry ↦ hcarry.1 hbyte, searchLine_eq hs hpat h.left hne hlen]
  dsimp only
  simp only [hmore]

/-- The last part, without a newline. -/
theorem lines_rest (h : (g.data.at k).Reads l) (hlast : g.last = k + l.length)
    (hline : newline ∉ l) (hne : ∀ x ∈ l, x ≠ 0) (hlen : l.length + 1 < 2 ^ 32) :
    lines s fname pat.length cnt (fuel + 1) k g =
      if g.data g.last ≠ newline ∧ cnt ≠ 0 ∧ k ≠ 0 then
        some { g with
          data := copied (Function.update g.data g.last 0) 0 k (l.length + 1)
          last := l.length }
      else
        some
          { data := Function.update g.data g.last 0
            last := 0
            out := g.out ++ reported (cstring fname) pat l } := by
  have hend : lineEnd g.data (g.last - k) k = g.last := by
    rw [hlast, Nat.add_sub_cancel_left, lineEnd_eq h, takeWhile_of_notMem hline]
  have hholds := h.holds_update hne
  rw [← hlast] at hholds
  rw [lines]
  dsimp only
  rw [hend]
  split
  · rw [ece391Strcpy, ece391StrcpyFrom_eq hholds (by omega) (Nat.zero_le k), hlast,
      Nat.add_sub_cancel_left]
  · rw [hlast, searchLine_eq hs hpat h hne hlen]
    dsimp only
    rw [hlast, if_pos (Nat.le_succ _)]

end Lines

/-! ## What the inner loop leaves -/

/-- What the inner loop does with the bytes `l` in the buffer.  The last line in it is either
complete, or searched as if it were (`stops`), or moved down. -/
inductive Swept (r : List UInt8 → List UInt8) (stops : Prop) (g : Grep) (l : List UInt8)
    (g' : Grep) : Prop
  | whole (hend : l.getLast? = some newline) (hlast : g'.last = 0)
      (hout : g'.out = g.out ++ report newline r l) (hdata : g'.data g.last = g.data g.last)
  | cut (hstops : stops) (hend : l.getLast? ≠ some newline) (hlast : g'.last = 0)
      (hout : g'.out = g.out ++ report newline r l) (hdata : g'.data g.last = 0)
  | kept (hstops : ¬ stops) (p : List UInt8) (hp : p <:+ l) (hline : newline ∉ p)
      (hlast : g'.last = p.length) (hreads : g'.data.Reads p)
      (hout : ∀ x, g'.out ++ report newline r (p ++ x) = g.out ++ report newline r (l ++ x))
      (hdata : g'.data g.last = 0)

/-- A line in front of the bytes. -/
theorem Swept.cons {r : List UInt8 → List UInt8} {stops stops' : Prop} {g g₁ g' : Grep}
    {a l : List UInt8} (h : Swept r stops' g₁ l g') (hstops : stops' ↔ stops) (ha : newline ∉ a)
    (hl : l ≠ []) (hlast₁ : g₁.last = g.last) (hdata₁ : g₁.data g.last = g.data g.last)
    (hout₁ : g₁.out = g.out ++ r a) : Swept r stops g (a ++ newline :: l) g' := by
  have hend₁ : (a ++ newline :: l).getLast? = l.getLast? := by
    rw [List.getLast?_append_cons, List.getLast?_cons_of_ne_nil hl]
  have hreport : ∀ x, report newline r (a ++ newline :: l ++ x) =
      r a ++ report newline r (l ++ x) := by
    intro x
    rw [List.append_assoc, List.cons_append, report_append_cons, report_of_notMem ha]
  have hreport₁ := hreport []
  rw [List.append_nil, List.append_nil] at hreport₁
  cases h with
  | whole hend hlast hout hdata =>
      refine .whole (hend₁.trans hend) hlast ?_ ?_
      · rw [hout, hout₁, hreport₁, List.append_assoc]
      · rw [← hdata₁, ← hlast₁, hdata]
  | cut hstop hend hlast hout hdata =>
      refine .cut (hstops.mp hstop) (hend₁ ▸ hend) hlast ?_ ?_
      · rw [hout, hout₁, hreport₁, List.append_assoc]
      · rw [← hlast₁, hdata]
  | kept hstop p hp hline hlast hreads hout hdata =>
      refine .kept (fun hyes ↦ hstop (hstops.mpr hyes)) p ?_ hline hlast hreads (fun x ↦ ?_) ?_
      · exact hp.trans ⟨a ++ [newline], by rw [List.append_assoc, List.singleton_append]⟩
      · rw [hout, hout₁, hreport, List.append_assoc]
      · rw [← hlast₁, hdata]

section Sweep

variable (hs : s.Holds pat) (hpat : pat ≠ [])

include hs hpat

variable {g : Grep} {cnt fuel k : Nat} {l : List UInt8}

theorem lines_swept_rest (h : (g.data.at k).Reads l) (hlast : g.last = k + l.length)
    (hne : ∀ x ∈ l, x ≠ 0) (hlen : l.length + 1 < 2 ^ 32) (hline : newline ∉ l) :
    ∃ g', lines s fname pat.length cnt (fuel + 1) k g = some g' ∧
      Swept (reported (cstring fname) pat)
        (g.data g.last = newline ∨ cnt = 0 ∨ k = 0 ∧ newline ∉ l) g l g' ∧
      ∀ x, g.last < x → g'.data x = g.data x := by
  have hend : l.getLast? ≠ some newline := fun heq ↦ hline (List.mem_of_getLast? heq)
  rw [lines_rest hs hpat h hlast hline hne hlen]
  split
  · rename_i hcarry
    have hk : 0 < k := Nat.pos_of_ne_zero hcarry.2.2
    refine ⟨_, rfl, .kept ?_ l List.suffix_rfl hline rfl (fun j hj ↦ ?_) (fun x ↦ rfl) ?_,
      fun x hx ↦ ?_⟩
    · rintro (heq | heq | heq)
      · exact hcarry.1 heq
      · exact hcarry.2.1 heq
      · exact hcarry.2.2 heq.1
    · have hcopy := copied_add (d := 0) (s := k) (Function.update g.data g.last 0)
        (Nat.lt_succ_of_lt hj)
      rw [Nat.zero_add, Function.update_of_ne (by omega)] at hcopy
      exact hcopy.trans (h j hj)
    · dsimp only
      rw [copied_of_notMem _ (by omega), Function.update_self]
    · dsimp only
      rw [copied_of_notMem _ (by omega), Function.update_of_ne (by omega)]
  · rename_i hstop
    refine ⟨_, rfl, .cut ?_ hend rfl ?_ (Function.update_self ..), fun x hx ↦ ?_⟩
    · by_contra hno
      rw [not_or, not_or] at hno
      exact hstop ⟨hno.1, hno.2.1, fun hk ↦ hno.2.2 ⟨hk, hline⟩⟩
    · rw [report_of_notMem hline]
    · exact Function.update_of_ne (by omega) _ _

theorem lines_swept (h : (g.data.at k).Reads l) (hlast : g.last = k + l.length)
    (hfuel : l.length < fuel) (hne : ∀ x ∈ l, x ≠ 0) (hlen : l.length + 1 < 2 ^ 32) :
    ∃ g', lines s fname pat.length cnt fuel k g = some g' ∧
      Swept (reported (cstring fname) pat)
        (g.data g.last = newline ∨ cnt = 0 ∨ k = 0 ∧ newline ∉ l) g l g' ∧
      ∀ x, g.last < x → g'.data x = g.data x := by
  induction fuel generalizing g k l with
  | zero => exact absurd hfuel (Nat.not_lt_zero _)
  | succ fuel ih =>
      rcases eq_takeWhile_or newline l with hl | ⟨l', hl⟩
      · have hline : newline ∉ l := by
          rw [hl]
          exact notMem_takeWhile newline l
        exact lines_swept_rest hs hpat h hlast hne hlen hline
      · have ha := notMem_takeWhile newline l
        generalize l.takeWhile (· ≠ newline) = a at hl ha
        subst hl
        rw [List.length_append, List.length_cons] at hfuel hlen
        have hneA : ∀ x ∈ a, x ≠ 0 := fun x hx ↦ hne x (List.mem_append_left _ hx)
        rw [lines_newline hs hpat h hlast ha hneA (by omega)]
        rw [List.length_append, List.length_cons] at hlast
        dsimp only
        by_cases hl' : l' = []
        · subst hl'
          refine ⟨_, if_pos rfl, .whole List.getLast?_concat rfl ?_ ?_, fun x hx ↦ ?_⟩
          · rw [report_append_cons, report_of_notMem ha, report_of_notMem List.not_mem_nil,
              reported_nil _ hpat, List.append_nil]
          · exact Function.update_of_ne (by omega) _ _
          · exact Function.update_of_ne (by omega) _ _
        · rw [if_neg hl']
          have hreads : (Bytes.at (Function.update g.data (k + a.length) 0)
              (k + a.length + 1)).Reads l' := by
            intro j hj
            have htail := h.right.tail j hj
            rw [Bytes.at_at, Bytes.at_at] at htail
            rw [Bytes.at, Function.update_of_ne (by omega)]
            exact htail
          have hlast' : g.last = k + a.length + 1 + l'.length := by omega
          obtain ⟨g', hg', hswept, hframe⟩ := ih (g := { g with
              data := Function.update g.data (k + a.length) 0
              out := g.out ++ reported (cstring fname) pat a }) hreads hlast' (by omega)
            (fun x hx ↦ hne x (List.mem_append_right _ (List.mem_cons_of_mem _ hx))) (by omega)
          have hdata : Function.update g.data (k + a.length) 0 g.last = g.data g.last :=
            Function.update_of_ne (by omega) _ _
          refine ⟨g', hg', hswept.cons ?_ ha hl' rfl hdata rfl, fun x hx ↦ ?_⟩
          · dsimp only
            rw [hdata]
            -- there is a line in front now
            refine or_congr Iff.rfl (or_congr Iff.rfl (iff_of_false (fun hk ↦ ?_) fun hk ↦ ?_))
            · exact absurd hk.1 (Nat.succ_ne_zero _)
            · exact hk.2 (List.mem_append_right _ List.mem_cons_self)
          · rw [hframe x hx]
            exact Function.update_of_ne (by omega) _ _

end Sweep

/-! ## Rounds of the outer loop -/

/-- A text without NULs, whose lines fit into the buffer. -/
structure Text (l : List UInt8) : Prop where
  ne_zero : ∀ x ∈ l, x ≠ 0
  short : ∀ a, a <:+: l → newline ∉ a → a.length < bufSize

theorem Text.suffix {l l' : List UInt8} (h : Text l) (hl' : l' <:+ l) : Text l' :=
  ⟨fun x hx ↦ h.ne_zero x (hl'.subset hx), fun a ha ↦ h.short a (ha.trans hl'.isInfix)⟩

theorem Text.of_lines {l : List UInt8} (hne : ∀ x ∈ l, x ≠ 0)
    (hlines : ∀ a ∈ l.splitOn newline, a.length < bufSize) : Text l := by
  refine ⟨hne, fun a ha hline ↦ ?_⟩
  obtain ⟨x, hx, hax⟩ := exists_infix_mem_splitOn ha hline
  exact Nat.lt_of_le_of_lt hax.length_le (hlines x hx)

/-- The start of a line is in the buffer. -/
structure Ready (g : Grep) (p : List UInt8) : Prop where
  last : g.last = p.length
  reads : g.data.Reads p
  line : newline ∉ p

theorem ready_nil {g : Grep} (h : g.last = 0) : Ready g [] :=
  ⟨h, fun j hj ↦ absurd hj (Nat.not_lt_zero j), List.not_mem_nil⟩

section Received

variable {g : Grep} {p bytes : List UInt8}

@[simp] theorem received_data (bytes : List UInt8) (g : Grep) :
    (received bytes g).data = applyLog g.data (logAt g.last bytes) := rfl

@[simp] theorem received_last (bytes : List UInt8) (g : Grep) :
    (received bytes g).last = g.last + bytes.length := rfl

@[simp] theorem received_out (bytes : List UInt8) (g : Grep) : (received bytes g).out = g.out := rfl

theorem Ready.received_reads (h : Ready g p) (bytes : List UInt8) :
    ((received bytes g).data.at 0).Reads (p ++ bytes) := by
  intro j hj
  rw [Bytes.at_zero, received_data, h.last]
  rcases Nat.lt_or_ge j p.length with hlt | hge
  · rw [applyLog_logAt_of_lt _ _ hlt, List.getD_append _ _ _ _ hlt]
    exact h.reads j hlt
  · obtain ⟨i, rfl⟩ := Nat.exists_eq_add_of_le hge
    rw [List.length_append] at hj
    rw [applyLog_logAt_add, List.getD_append_right _ _ _ _ hge, Nat.add_sub_cancel_left,
      List.getD_eq_getElem _ _ (by omega), List.getD_eq_getElem _ _ (by omega)]

theorem received_bufSize (hlen : g.last + bytes.length ≤ bufSize) :
    (received bytes g).data bufSize = g.data bufSize := by
  obtain ⟨i, hi⟩ := Nat.exists_eq_add_of_le (Nat.le_of_add_right_le hlen)
  rw [received_data, hi, applyLog_logAt_add, List.getD_eq_default _ _ (by omega)]

theorem Swept.stale {r : List UInt8 → List UInt8} {stops : Prop} {l : List UInt8} {g' : Grep}
    (h : Swept r stops (received bytes g) l g')
    (hframe : ∀ x, g.last + bytes.length < x → g'.data x = (received bytes g).data x)
    (hlen : g.last + bytes.length ≤ bufSize) (hnl : g'.data bufSize = newline) :
    g.data bufSize = newline := by
  rw [← received_bufSize hlen]
  rcases Nat.lt_or_eq_of_le hlen with hlt | heq
  · rw [← hframe bufSize hlt, hnl]
  · have hdata : g'.data bufSize = (received bytes g).data bufSize ∨ g'.data bufSize = 0 := by
      rw [← heq]
      cases h with
      | whole _ _ _ hdata => exact .inl hdata
      | cut _ _ _ _ hdata => exact .inr hdata
      | kept _ _ _ _ _ _ _ hdata => exact .inr hdata
    rcases hdata with hdata | hdata
    · rw [← hdata, hnl]
    · rw [hnl] at hdata
      exact absurd hdata (by decide)

end Received

/-- A read of `n` bytes from a stream: what it delivers, and what is left. -/
structure Delivers (n : Nat) (rest bytes rest' : List UInt8) : Prop where
  append : rest = bytes ++ rest'
  le : bytes.length ≤ n
  nil_of_lt : bytes.length < n → rest' = []

theorem delivers_take (n : Nat) (rest : List UInt8) :
    Delivers n rest (rest.take n) (rest.drop n) := by
  refine ⟨(List.take_append_drop n rest).symm, List.length_take_le n rest, fun hlt ↦ ?_⟩
  rw [List.length_take] at hlt
  exact List.drop_eq_nil_iff.mpr (by omega)

section Rounds

variable (fname) (hs : s.Holds pat) (hpat : pat ≠ [])

include hs hpat

variable {g : Grep} {p rest bytes rest' : List UInt8}

/-- The inner loop after a read. -/
theorem exists_swept (hready : Ready g p) (htext : Text (p ++ rest))
    (hread : Delivers (bufSize - p.length) rest bytes rest') :
    ∃ g', lines s fname pat.length bytes.length (g.last + bytes.length + 1) 0 (received bytes g) =
        some g' ∧
      Swept (reported (cstring fname) pat)
        ((received bytes g).data (received bytes g).last = newline ∨ bytes.length = 0 ∨
          0 = 0 ∧ newline ∉ p ++ bytes) (received bytes g) (p ++ bytes) g' ∧
      ∀ x, g.last + bytes.length < x → g'.data x = (received bytes g).data x := by
  have hp : p.length < bufSize := htext.short p (List.prefix_append p rest).isInfix hready.line
  have hle := hread.le
  have hbuf : bufSize = 1024 := rfl
  refine lines_swept hs hpat (hready.received_reads bytes) ?_ ?_ (fun x hx ↦ ?_) ?_
  · rw [received_last, hready.last, List.length_append, Nat.zero_add]
  · rw [hready.last, List.length_append]
    exact Nat.lt_succ_self _
  · refine htext.ne_zero x ?_
    rw [hread.append, ← List.append_assoc]
    exact List.mem_append_left rest' hx
  · rw [List.length_append]
    omega

/-- A round of the outer loop, if no stale newline can be behind a full buffer. -/
theorem exists_ready (hready : Ready g p) (htext : Text (p ++ rest))
    (hsettled : g.data bufSize = newline → (p ++ rest).length < bufSize)
    (hread : Delivers (bufSize - p.length) rest bytes rest') :
    ∃ g' p', lines s fname pat.length bytes.length (g.last + bytes.length + 1) 0
        (received bytes g) = some g' ∧
      Ready g' p' ∧ p' ++ rest' <:+ p ++ rest ∧
      (g'.data bufSize = newline → (p' ++ rest').length < bufSize) ∧
      g'.out ++ report newline (reported (cstring fname) pat) (p' ++ rest') =
        g.out ++ report newline (reported (cstring fname) pat) (p ++ rest) ∧
      (bytes = [] → p' = [] ∧ rest = []) := by
  obtain ⟨g', hlines, hswept, hframe⟩ := exists_swept fname hs hpat hready htext hread
  have hp : p.length < bufSize := htext.short p (List.prefix_append p rest).isInfix hready.line
  have hle := hread.le
  have happend : p ++ rest = p ++ bytes ++ rest' := by rw [hread.append, List.append_assoc]
  have hnil : reported (cstring fname) pat [] = [] := reported_nil _ hpat
  have hempty : bytes = [] → rest' = [] ∧ rest = [] := by
    rintro rfl
    have hrest' := hread.nil_of_lt (Nat.sub_pos_of_lt hp)
    exact ⟨hrest', by rw [hread.append, hrest', List.nil_append]⟩
  have hstale : g'.data bufSize = newline → g.data bufSize = newline :=
    hswept.stale hframe (by rw [hready.last]; omega)
  have hshrinks : ∀ p', p' ++ rest' <:+ p ++ rest →
      g'.data bufSize = newline → (p' ++ rest').length < bufSize := fun p' hsuf hnl ↦
    Nat.lt_of_le_of_lt hsuf.length_le (hsettled (hstale hnl))
  have hrest : rest' <:+ p ++ rest := happend ▸ List.suffix_append _ _
  cases hswept with
  | whole hend hlast hout hdata =>
      refine ⟨g', [], hlines, ready_nil hlast, hrest, hshrinks [] hrest, ?_,
        fun hb ↦ ⟨rfl, (hempty hb).2⟩⟩
      rw [hout, received_out, happend, report_append_of_getLast? hend hnil, List.append_assoc,
        List.nil_append]
  | cut hstops hend hlast hout hdata =>
      have hend' : rest' = [] := by
        by_contra hmore
        have hfull : p.length + bytes.length = bufSize := by
          have hnot := mt hread.nil_of_lt hmore
          omega
        rcases hstops with hnl | hnone | ⟨-, hline⟩
        · -- the buffer is full, and the newline behind it is an old one
          rw [received_last, hready.last, hfull,
            received_bufSize (by rw [hready.last]; omega)] at hnl
          have hlt := hsettled hnl
          rw [happend, List.length_append, List.length_append] at hlt
          omega
        · exact hmore (hempty (List.length_eq_zero_iff.mp hnone)).1
        · -- a line that fills the buffer
          have hlt := htext.short (p ++ bytes) (happend ▸ (List.prefix_append _ _).isInfix) hline
          rw [List.length_append] at hlt
          omega
      refine ⟨g', [], hlines, ready_nil hlast, hrest, hshrinks [] hrest, ?_,
        fun hb ↦ ⟨rfl, (hempty hb).2⟩⟩
      rw [hout, received_out, happend, hend', List.append_nil, List.append_nil,
        report_of_notMem List.not_mem_nil, hnil, List.append_nil]
  | kept hstops p' hp' hline hlast hreads hout hdata =>
      have hsuf : p' ++ rest' <:+ p ++ rest := by
        obtain ⟨l₀, hl₀⟩ := hp'
        exact ⟨l₀, by rw [happend, ← hl₀, List.append_assoc]⟩
      refine ⟨g', p', hlines, ⟨hlast, hreads, hline⟩, hsuf, hshrinks p' hsuf, ?_, fun hb ↦ ?_⟩
      · rw [hout, received_out, happend]
      · exact absurd (.inr (.inl (List.length_eq_zero_iff.mpr hb))) hstops

/-- A round of the outer loop with a full block and a stale newline behind it. -/
theorem exists_full (hlast : g.last = 0) (htext : Text rest) (hstale : g.data bufSize = newline)
    (hfull : bytes.length = bufSize) (hread : Delivers bufSize rest bytes rest') :
    ∃ g', lines s fname pat.length bytes.length (g.last + bytes.length + 1) 0 (received bytes g) =
        some g' ∧ g'.last = 0 ∧
      g'.out = g.out ++ report newline (reported (cstring fname) pat) bytes ∧
      (bytes.getLast? = some newline ∧ g'.data bufSize = newline ∨
        bytes.getLast? ≠ some newline ∧ g'.data bufSize ≠ newline) := by
  obtain ⟨g', hlines, hswept, -⟩ := exists_swept fname hs hpat (ready_nil hlast) htext hread
  have hend : (received bytes g).last = bufSize := by rw [received_last, hlast, hfull, Nat.zero_add]
  have hnl : (received bytes g).data bufSize = newline := by
    rw [received_bufSize (by rw [hlast, hfull, Nat.zero_add]), hstale]
  refine ⟨g', hlines, ?_⟩
  cases hswept with
  | whole hlast' hzero hout hdata =>
      rw [hend, hnl] at hdata
      exact ⟨hzero, hout, .inl ⟨hlast', hdata⟩⟩
  | cut _ hlast' hzero hout hdata =>
      rw [hend] at hdata
      exact ⟨hzero, hout, .inr ⟨hlast', fun heq ↦ absurd (hdata.symm.trans heq) (by decide)⟩⟩
  | kept hstops _ _ _ _ _ _ _ => exact absurd (.inl (hend ▸ hnl)) hstops

end Rounds

/-! ## Runs of the outer loop -/

/-- The first block of the buffer's size that is full and does not end in a newline ends at `q`. -/
inductive BreakAt : List UInt8 → Nat → Prop
  | here {l : List UInt8} (hlen : bufSize ≤ l.length)
      (hend : (l.take bufSize).getLast? ≠ some newline) : BreakAt l bufSize
  | later {l : List UInt8} {q : Nat} (hlen : bufSize ≤ l.length)
      (hend : (l.take bufSize).getLast? = some newline) (hq : BreakAt (l.drop bufSize) q) :
      BreakAt l (bufSize + q)

/-- What is reported of a text that is cut there. -/
def Broken (r : List UInt8 → List UInt8) (l out : List UInt8) : Prop :=
  (∀ q, ¬ BreakAt l q) ∧ out = report newline r l ∨
    ∃ q, BreakAt l q ∧ out = report newline r (l.take q) ++ report newline r (l.drop q)

section Broken

variable {r : List UInt8 → List UInt8} {l out : List UInt8}

theorem broken_of_lt (h : l.length < bufSize) : Broken r l (report newline r l) := by
  refine .inl ⟨fun q hq ↦ ?_, rfl⟩
  cases hq with
  | here hlen _ => exact absurd h (Nat.not_lt.mpr hlen)
  | later hlen _ _ => exact absurd h (Nat.not_lt.mpr hlen)

theorem Broken.block (h : Broken r (l.drop bufSize) out) (hlen : bufSize ≤ l.length)
    (hend : (l.take bufSize).getLast? = some newline) (hr : r [] = []) :
    Broken r l (report newline r (l.take bufSize) ++ out) := by
  have hreport := report_append_of_getLast? hend hr
  rcases h with ⟨hno, rfl⟩ | ⟨q, hq, rfl⟩
  · refine .inl ⟨fun q hq ↦ ?_, ?_⟩
    · cases hq with
      | here _ hend' => exact hend' hend
      | later _ _ hq => exact hno _ hq
    · rw [← hreport, List.take_append_drop]
  · refine .inr ⟨bufSize + q, .later hlen hend hq, ?_⟩
    rw [List.take_add, hreport, List.append_assoc, List.drop_drop]

end Broken

section Runs

variable {sys : GrepSys} {file : List UInt8}
  (hread : ∀ pos n, sys.read pos n = some ((file.drop pos).take n))

include hread in
/-- One round, with the bytes that it reads. -/
theorem exists_readLoop_succ (s fname : Bytes) (sLen fuel pos : Nat) (g : Grep) :
    ∃ bytes, Delivers (bufSize - g.last) (file.drop pos) bytes (file.drop (pos + bytes.length)) ∧
      readLoop sys s fname sLen (fuel + 1) pos g =
        (lines s fname sLen bytes.length (g.last + bytes.length + 1) 0 (received bytes g)).bind
          fun g' ↦ if bytes.length = 0 then some (finish sys g')
            else readLoop sys s fname sLen fuel (pos + bytes.length) g' := by
  have hdeliver := delivers_take (bufSize - g.last) (file.drop pos)
  have hpos : file.drop (pos + ((file.drop pos).take (bufSize - g.last)).length) =
      (file.drop pos).drop (bufSize - g.last) := by
    have hdrop := congrArg (List.drop ((file.drop pos).take (bufSize - g.last)).length)
      hdeliver.append
    rwa [List.drop_left, List.drop_drop] at hdrop
  refine ⟨_, hpos ▸ hdeliver, ?_⟩
  rw [readLoop, hread]

variable (fname) (hs : s.Holds pat) (hpat : pat ≠ []) (hclosed : sys.closed ≠ -1)

include hread hs hpat hclosed

/-- The rest of a run, if no stale newline can be behind a full buffer. -/
theorem readLoop_eq {g : Grep} {p : List UInt8} {fuel pos : Nat} (hready : Ready g p)
    (htext : Text (p ++ file.drop pos))
    (hsettled : g.data bufSize = newline → (p ++ file.drop pos).length < bufSize)
    (hfuel : (file.drop pos).length < fuel) :
    readLoop sys s fname pat.length fuel pos g =
      some (0, g.out ++ report newline (reported (cstring fname) pat) (p ++ file.drop pos)) := by
  induction fuel generalizing g p pos with
  | zero => exact absurd hfuel (Nat.not_lt_zero _)
  | succ fuel ih =>
      obtain ⟨bytes, hdeliver, hround⟩ := exists_readLoop_succ hread s fname pat.length fuel pos g
      rw [hready.last] at hdeliver
      obtain ⟨g', p', hlines, hready', hsuf, hsettled', hout, hempty⟩ :=
        exists_ready fname hs hpat hready htext hsettled hdeliver
      rw [hround, hlines, Option.bind_some, ← hout]
      split
      · rename_i hcnt
        obtain ⟨rfl, hrest⟩ := hempty (List.length_eq_zero_iff.mp hcnt)
        rw [finish, if_neg hclosed, hcnt, Nat.add_zero, hrest, List.append_nil,
          report_of_notMem List.not_mem_nil, reported_nil _ hpat, List.append_nil]
      · rename_i hcnt
        have hlen := congrArg List.length hdeliver.append
        rw [List.length_append] at hlen
        exact ih hready' (htext.suffix hsuf) hsettled' (by omega)

/-- A run with a stale newline behind the buffer. -/
theorem readLoop_stale {g : Grep} {fuel pos : Nat} (hlast : g.last = 0)
    (htext : Text (file.drop pos)) (hstale : g.data bufSize = newline)
    (hfuel : (file.drop pos).length < fuel) :
    ∃ out, readLoop sys s fname pat.length fuel pos g = some (0, g.out ++ out) ∧
      Broken (reported (cstring fname) pat) (file.drop pos) out := by
  induction fuel generalizing g pos with
  | zero => exact absurd hfuel (Nat.not_lt_zero _)
  | succ fuel ih =>
      by_cases hshort : (file.drop pos).length < bufSize
      · exact ⟨_, readLoop_eq fname hread hs hpat hclosed (ready_nil hlast) htext
          (fun _ ↦ hshort) hfuel, broken_of_lt hshort⟩
      · obtain ⟨bytes, hdeliver, hround⟩ := exists_readLoop_succ hread s fname pat.length fuel pos g
        rw [hlast, Nat.sub_zero] at hdeliver
        have happend := hdeliver.append
        have hlen := congrArg List.length happend
        rw [List.length_append] at hlen
        have hfull : bytes.length = bufSize := by
          refine Nat.le_antisymm hdeliver.le (Nat.not_lt.mp fun hlt ↦ hshort ?_)
          rwa [hlen, hdeliver.nil_of_lt hlt, List.length_nil, Nat.add_zero]
        have hpos : 0 < bytes.length := by
          rw [hfull]
          decide
        have htake : (file.drop pos).take bufSize = bytes := by
          rw [happend, ← hfull, List.take_left]
        have hdrop : (file.drop pos).drop bufSize = file.drop (pos + bytes.length) := by
          rw [List.drop_drop, hfull]
        have htext' : Text (file.drop (pos + bytes.length)) :=
          htext.suffix (hdrop ▸ List.drop_suffix _ _)
        obtain ⟨g', hlines, hzero, hout, hend⟩ :=
          exists_full fname hs hpat hlast htext hstale hfull hdeliver
        rw [hround, hlines, Option.bind_some, if_neg hpos.ne']
        rcases hend with ⟨hnl, hstale'⟩ | ⟨hnl, hsettled⟩
        · obtain ⟨out, hloop, hbroken⟩ := ih hzero htext' hstale' (by omega)
          refine ⟨report newline (reported (cstring fname) pat) bytes ++ out, ?_, ?_⟩
          · rw [hloop, hout, List.append_assoc]
          · rw [← hdrop] at hbroken
            have hblock := hbroken.block (Nat.not_lt.mp hshort) (htake ▸ hnl) (reported_nil _ hpat)
            rwa [htake] at hblock
        · refine ⟨report newline (reported (cstring fname) pat) bytes ++
              report newline (reported (cstring fname) pat) (file.drop (pos + bytes.length)), ?_,
            .inr ⟨bufSize, .here (Nat.not_lt.mp hshort) (htake ▸ hnl), by rw [htake, hdrop]⟩⟩
          rw [readLoop_eq fname hread hs hpat hclosed (ready_nil hzero) htext'
            (fun heq ↦ absurd heq hsettled) (by omega), hout, List.append_assoc, List.nil_append]

end Runs

/-! ## What should be reported -/

/-- The lines that contain the pattern, each with the name of the file. -/
def grepOutput (name pat file : List UInt8) : List UInt8 :=
  ((file.splitOn newline).filter fun l ↦ pat <:+: l).flatMap fun l ↦
    name ++ 0x3a :: (l ++ [newline])

/-- What `grepOutput` has for a line. -/
def shown (name pat l : List UInt8) : List UInt8 :=
  if decide (pat <:+: l) then name ++ 0x3a :: (l ++ [newline]) else []

theorem grepOutput_eq (name pat file : List UInt8) :
    grepOutput name pat file = report newline (shown name pat) file :=
  (report_ite (fun l ↦ pat <:+: l) _ file).symm

theorem grepOutput_eq_nil_iff {name file : List UInt8} :
    grepOutput name pat file = [] ↔ ∀ l ∈ file.splitOn newline, ¬ pat <:+: l := by
  rw [grepOutput, List.flatMap_eq_nil_iff]
  constructor
  · intro h l hl hin
    have hnil := h l (List.mem_filter.mpr ⟨hl, decide_eq_true hin⟩)
    exact absurd hnil (List.append_ne_nil_of_right_ne_nil _ (List.cons_ne_nil _ _))
  · intro h l hl
    obtain ⟨hl, hin⟩ := List.mem_filter.mp hl
    exact absurd (of_decide_eq_true hin) (h l hl)

theorem reported_of_lt (hlow : pat.getD 0 0 < 0x80) (name : List UInt8) :
    reported name pat = shown name pat := by
  funext l
  rw [reported, shown]
  by_cases hin : pat <:+: l
  · rw [if_pos ⟨hlow, hin⟩, if_pos (decide_eq_true hin)]
  · rw [if_neg fun hhits ↦ hin hhits.2, if_neg fun htrue ↦ hin (of_decide_eq_true htrue)]

theorem reported_of_ge (hhigh : ¬ pat.getD 0 0 < 0x80) (name : List UInt8) :
    reported name pat = fun _ ↦ [] :=
  funext fun _ ↦ if_neg fun hhits ↦ hhigh hhits.1

theorem report_const_nil (l : List UInt8) : report newline (fun _ ↦ ([] : List UInt8)) l = [] :=
  List.flatMap_eq_nil_iff.mpr fun _ _ ↦ rfl

theorem shown_pos {name l : List UInt8} (h : pat <:+: l) :
    shown name pat l = name ++ 0x3a :: (l ++ [newline]) := if_pos (decide_eq_true h)

theorem shown_neg {name l : List UInt8} (h : ¬ pat <:+: l) : shown name pat l = [] :=
  if_neg fun htrue ↦ h (of_decide_eq_true htrue)

/-- A line that is reported in two parts; its length tells. -/
theorem shown_append_iff {name a b : List UInt8} (ha : a ≠ []) (hb : b ≠ []) :
    shown name pat a ++ shown name pat b = shown name pat (a ++ b) ↔ ¬ pat <:+: a ++ b := by
  have halen := List.length_pos_of_ne_nil ha
  have hblen := List.length_pos_of_ne_nil hb
  have hlength : ∀ l, (shown name pat l).length = 0 ∨
      (shown name pat l).length = name.length + 2 + l.length := by
    intro l
    by_cases hin : pat <:+: l
    · right
      rw [shown_pos hin, List.length_append, List.length_cons, List.length_append,
        List.length_singleton]
      omega
    · left
      rw [shown_neg hin, List.length_nil]
  constructor
  · intro heq hin
    have hlen := congrArg List.length heq
    rw [shown_pos hin, List.length_append, List.length_append, List.length_cons,
      List.length_append, List.length_append, List.length_singleton] at hlen
    rcases hlength a with ha' | ha' <;> rcases hlength b with hb' | hb' <;> omega
  · intro hno
    have hnoA : ¬ pat <:+: a := fun hin ↦ hno (hin.trans (List.prefix_append a b).isInfix)
    have hnoB : ¬ pat <:+: b := fun hin ↦ hno (hin.trans (List.suffix_append a b).isInfix)
    rw [shown_neg hno, shown_neg hnoA, shown_neg hnoB, List.nil_append]

theorem BreakAt.take_ne_nil {l : List UInt8} {q : Nat} (h : BreakAt l q) :
    l.take q ≠ [] ∧ (l.take q).getLast? ≠ some newline := by
  induction h with
  | @here l hlen hend =>
      refine ⟨fun hnil ↦ ?_, hend⟩
      have hzero := congrArg List.length hnil
      rw [List.length_take_of_le hlen] at hzero
      exact absurd hzero (by decide)
  | later hlen hend hq ih =>
      rw [List.take_add]
      refine ⟨List.append_ne_nil_of_right_ne_nil _ ih.1, ?_⟩
      rw [List.getLast?_append_of_ne_nil _ ih.1]
      exact ih.2

theorem BreakAt.unique {l : List UInt8} {q q' : Nat} (h : BreakAt l q) (h' : BreakAt l q') :
    q = q' := by
  induction h generalizing q' with
  | here hlen hend =>
      cases h' with
      | here => rfl
      | later _ hend' _ => exact absurd hend' hend
  | later hlen hend hq ih =>
      cases h' with
      | here _ hend' => exact absurd hend hend'
      | later _ _ hq' => rw [ih hq']

theorem Broken.unique {r : List UInt8 → List UInt8} {l out out' : List UInt8} (h : Broken r l out)
    (h' : Broken r l out') : out = out' := by
  rcases h with ⟨hno, rfl⟩ | ⟨q, hq, rfl⟩ <;> rcases h' with ⟨hno', rfl⟩ | ⟨q', hq', rfl⟩
  · rfl
  · exact absurd hq' (hno q')
  · exact absurd hq (hno' q)
  · rw [hq.unique hq']

/-- The part of a line before `q`. -/
def lineBefore (file : List UInt8) (q : Nat) : List UInt8 :=
  (file.take q).rtakeWhile (· ≠ newline)

/-- The part of a line from `q` on. -/
def lineBehind (file : List UInt8) (q : Nat) : List UInt8 := (file.drop q).takeWhile (· ≠ newline)

/-- No line with the pattern goes on behind the first full block that does not end in a newline. -/
def CutsNone (pat file : List UInt8) : Prop :=
  ∀ q, BreakAt file q → lineBehind file q ≠ [] → ¬ pat <:+: lineBefore file q ++ lineBehind file q

theorem Broken.eq_grepOutput_iff {name file out : List UInt8} (hpat : pat ≠ [])
    (h : Broken (shown name pat) file out) :
    out = grepOutput name pat file ↔ CutsNone pat file := by
  rw [grepOutput_eq]
  rcases h with ⟨hno, rfl⟩ | ⟨q, hq, rfl⟩
  · exact iff_of_true rfl fun q hq ↦ absurd hq (hno q)
  · obtain ⟨u, v, hleft, hright, hboth⟩ :=
      report_cut newline (shown name pat) (file.take q) (file.drop q)
    rw [List.take_append_drop] at hboth
    have hbefore : lineBefore file q ≠ [] :=
      rtakeWhile_ne_nil hq.take_ne_nil.1 hq.take_ne_nil.2
    have hcuts : CutsNone pat file ↔ (lineBehind file q ≠ [] →
        ¬ pat <:+: lineBefore file q ++ lineBehind file q) :=
      ⟨fun hall ↦ hall q hq, fun hone q' hq' ↦ hq.unique hq' ▸ hone⟩
    rw [hcuts, hleft, hright, hboth, List.append_assoc, List.append_cancel_left_eq,
      ← List.append_assoc, List.append_cancel_right_eq, ← lineBefore, ← lineBehind]
    by_cases hbehind : lineBehind file q = []
    · rw [hbehind, shown_neg fun hin ↦ hpat (List.infix_nil.mp hin), List.append_nil,
        List.append_nil]
      exact iff_of_true rfl fun hne ↦ absurd rfl hne
    · rw [shown_append_iff hbefore hbehind]
      exact ⟨fun hno _ ↦ hno, fun himp ↦ himp hbehind⟩

/-! ## When it is -/

/-- No line contains the pattern; or its first byte is a positive `char`, and no line with it is cut
if the byte behind the buffer is a newline. -/
def Reportable (data : Bytes) (pat file : List UInt8) : Prop :=
  (∀ l ∈ file.splitOn newline, ¬ pat <:+: l) ∨
    pat.getD 0 0 < 0x80 ∧ (data bufSize = newline → CutsNone pat file)

theorem eq_grepOutput_iff_reportable {data : Bytes} {name file out : List UInt8} (hpat : pat ≠ [])
    (hstale : data bufSize = newline → Broken (reported name pat) file out)
    (hclean : data bufSize ≠ newline → out = report newline (reported name pat) file) :
    out = grepOutput name pat file ↔ Reportable data pat file := by
  by_cases hlow : pat.getD 0 0 < 0x80
  · rw [reported_of_lt hlow] at hstale hclean
    by_cases hnl : data bufSize = newline
    · rw [(hstale hnl).eq_grepOutput_iff hpat]
      refine ⟨fun hall ↦ .inr ⟨hlow, fun _ ↦ hall⟩, ?_⟩
      rintro (hnone | ⟨-, hall⟩)
      · intro q _ _
        have hmem := cut_mem_splitOn newline (file.take q) (file.drop q)
        rw [List.take_append_drop] at hmem
        exact hnone _ hmem
      · exact hall hnl
    · rw [hclean hnl, grepOutput_eq]
      exact iff_of_true rfl (.inr ⟨hlow, fun heq ↦ absurd heq hnl⟩)
  · rw [reported_of_ge hlow] at hstale hclean
    have hout : out = [] := by
      by_cases hnl : data bufSize = newline
      · rcases hstale hnl with ⟨-, rfl⟩ | ⟨q, -, rfl⟩
        · exact report_const_nil file
        · rw [report_const_nil, report_const_nil, List.nil_append]
      · rw [hclean hnl, report_const_nil]
    rw [hout, eq_comm, grepOutput_eq_nil_iff]
    exact ⟨fun hnone ↦ .inl hnone, fun h ↦ h.resolve_right fun hboth ↦ hlow hboth.1⟩

/-- Every run ends, and returns 0. -/
theorem exists_doOneFile {sys : GrepSys} {file : List UInt8} (fname data : Bytes)
    (hopened : sys.opened ≠ -1) (hclosed : sys.closed ≠ -1)
    (hread : ∀ pos n, sys.read pos n = some ((file.drop pos).take n)) (hne : ∀ x ∈ file, x ≠ 0)
    (hlines : ∀ l ∈ file.splitOn newline, l.length < bufSize) (hs : s.Holds pat)
    (hlen : pat.length < 2 ^ 32) (hpat : pat ≠ []) :
    ∃ out, (∀ fuel, file.length < fuel → doOneFile sys s fname data fuel = some (0, out)) ∧
      (out = grepOutput (cstring fname) pat file ↔ Reportable data pat file) := by
  have htext := Text.of_lines hne hlines
  have hrun : ∀ fuel, doOneFile sys s fname data fuel =
      readLoop sys s fname pat.length fuel 0 ⟨data, 0, []⟩ := by
    intro fuel
    rw [doOneFile, if_neg hopened, hs.strlen_eq hlen]
  by_cases hnl : data bufSize = newline
  · have hstale : ∀ fuel, file.length < fuel → ∃ out,
        readLoop sys s fname pat.length fuel 0 ⟨data, 0, []⟩ = some (0, [] ++ out) ∧
          Broken (reported (cstring fname) pat) (file.drop 0) out := fun fuel hfuel ↦
      readLoop_stale fname hread hs hpat hclosed rfl htext hnl hfuel
    obtain ⟨out, -, hbroken⟩ := hstale (file.length + 1) (Nat.lt_succ_self _)
    refine ⟨out, fun fuel hfuel ↦ ?_, ?_⟩
    · obtain ⟨out', hloop, hbroken'⟩ := hstale fuel hfuel
      rw [hrun, hloop, hbroken.unique hbroken', List.nil_append]
    · exact eq_grepOutput_iff_reportable hpat (fun _ ↦ hbroken) fun hclean ↦ absurd hnl hclean
  · refine ⟨_, fun fuel hfuel ↦ ?_,
      eq_grepOutput_iff_reportable hpat (fun heq ↦ absurd heq hnl) fun _ ↦ rfl⟩
    rw [hrun]
    exact readLoop_eq fname hread hs hpat hclosed (ready_nil rfl) htext
      (fun heq ↦ absurd heq hnl) hfuel

/-- With enough fuel. -/
theorem exists_forall_le_iff {run : Nat → Option (Int × List UInt8)} {out expected : List UInt8}
    {n₀ : Nat} (hrun : ∀ fuel, n₀ < fuel → run fuel = some (0, out)) :
    (∃ n, ∀ fuel, n ≤ fuel → run fuel = some (0, expected)) ↔ out = expected := by
  constructor
  · rintro ⟨n, hn⟩
    have hout := hrun (max n (n₀ + 1)) (Nat.lt_of_succ_le (Nat.le_max_right n (n₀ + 1)))
    rw [hn _ (Nat.le_max_left n (n₀ + 1))] at hout
    exact (congrArg Prod.snd (Option.some.inj hout)).symm
  · rintro rfl
    exact ⟨n₀ + 1, fun fuel hfuel ↦ hrun fuel hfuel⟩

/-- **When `grep` reports the matching lines.**  On a file without NULs whose lines fit into the
buffer, `do_one_file` ends, returns 0 and has written each line that contains the pattern once, in
order, if and only if the file and the byte behind the buffer are `Reportable`. -/
theorem do_one_file_reports_iff {sys : GrepSys} {s : Bytes} {pat file : List UInt8}
    (fname data : Bytes) (hopened : sys.opened ≠ -1) (hclosed : sys.closed ≠ -1)
    (hread : ∀ pos n, sys.read pos n = some ((file.drop pos).take n)) (hne : ∀ x ∈ file, x ≠ 0)
    (hlines : ∀ l ∈ file.splitOn newline, l.length < bufSize) (hs : s.Holds pat)
    (hlen : pat.length < 2 ^ 32) (hpat : pat ≠ []) :
    (∃ n, ∀ fuel, n ≤ fuel →
      doOneFile sys s fname data fuel = some (0, grepOutput (cstring fname) pat file)) ↔
      Reportable data pat file := by
  obtain ⟨out, hrun, hiff⟩ :=
    exists_doOneFile fname data hopened hclosed hread hne hlines hs hlen hpat
  rw [exists_forall_le_iff hrun, hiff]

/-- A file that can be opened, read to its end and closed. -/
def fileSys (file : List UInt8) : GrepSys := ⟨0, fun pos n ↦ some ((file.drop pos).take n), 0⟩

/-- The file `ab`, `cd` and the pattern `b`, with newlines in the whole buffer before. -/
theorem do_one_file_reports_two_lines :
    ∃ n, ∀ fuel, n ≤ fuel →
      doOneFile (fileSys [0x61, 0x62, 0x0a, 0x63, 0x64]) (.ofList [0x62]) (.ofList [0x66])
        (fun _ ↦ 0x0a) fuel = some (0, [0x66, 0x3a, 0x61, 0x62, 0x0a]) := by
  have hname : cstring (.ofList [0x66]) = [0x66] := (cstring_ofList (by simp) (by decide)).2
  have hpieces : ([0x61, 0x62, 0x0a, 0x63, 0x64] : List UInt8).splitOn newline =
      [[0x61, 0x62], [0x63, 0x64]] := by decide
  have hout : grepOutput (cstring (.ofList [0x66])) [0x62] [0x61, 0x62, 0x0a, 0x63, 0x64] =
      [0x66, 0x3a, 0x61, 0x62, 0x0a] := by
    rw [hname, grepOutput, hpieces]
    decide
  rw [← hout]
  refine (do_one_file_reports_iff _ _ (by decide) (by decide) (fun _ _ ↦ rfl) (by simp) ?_
    (Bytes.holds_ofList (by simp)) (by decide) (by decide)).mpr ?_
  · rw [hpieces]
    decide
  · refine .inr ⟨by decide, fun _ q hq ↦ ?_⟩
    cases hq with
    | here hlen _ => exact absurd hlen (by decide)
    | later hlen _ _ => exact absurd hlen (by decide)

theorem reports_fileSys_iff (pat file : List UInt8) (fname data : Bytes) (hne : ∀ x ∈ file, x ≠ 0)
    (hlines : ∀ l ∈ file.splitOn newline, l.length < bufSize) (hzero : ∀ x ∈ pat, x ≠ 0)
    (hlen : pat.length < 2 ^ 32) (hpat : pat ≠ []) :
    (∃ n, ∀ fuel, n ≤ fuel → doOneFile (fileSys file) (.ofList pat) fname data fuel =
      some (0, grepOutput (cstring fname) pat file)) ↔ Reportable data pat file := by
  have hok : (0 : Int) ≠ -1 := by decide
  have hread : ∀ pos n, (fileSys file).read pos n = some ((file.drop pos).take n) := fun _ _ ↦ rfl
  obtain ⟨out, hrun, hiff⟩ := exists_doOneFile fname data hok hok hread hne hlines
    (Bytes.holds_ofList hzero) hlen hpat
  rw [← hiff]
  exact exists_forall_le_iff hrun

/-- The first full block of this file ends in the middle of its second line. -/
def longLine : List UInt8 := 0x62 :: newline :: List.replicate 1023 0x61

theorem splitOn_longLine : longLine.splitOn newline = [[0x62], List.replicate 1023 0x61] := by
  have hline : newline ∉ List.replicate 1023 (0x61 : UInt8) := fun hmem ↦
    absurd (List.eq_of_mem_replicate hmem) (by decide)
  have hfirst : newline ∉ [(0x62 : UInt8)] := by decide
  rw [longLine, ← List.singleton_append, List.splitOn_append_cons_self_of_not_mem hfirst,
    List.splitOn_eq_singleton hline]

theorem not_reportable_longLine {data : Bytes} (hdata : data bufSize = newline) :
    ¬ Reportable data [0x61] longLine := by
  have hsize : bufSize = 1022 + 2 := rfl
  have htake : longLine.take bufSize = [0x62, newline] ++ List.replicate 1022 0x61 := by
    rw [longLine, hsize, List.take_succ_cons, List.take_succ_cons, List.take_replicate]
    rfl
  have hdrop : longLine.drop bufSize = [0x61] := by
    rw [longLine, hsize, List.drop_succ_cons, List.drop_succ_cons, List.drop_replicate]
    rfl
  have hbreak : BreakAt longLine bufSize := by
    refine .here ?_ ?_
    · rw [longLine, List.length_cons, List.length_cons, List.length_replicate]
      decide
    · rw [htake, List.replicate_succ', ← List.append_assoc, List.getLast?_concat]
      decide
  have hmore : lineBehind longLine bufSize = [0x61] := by
    rw [lineBehind, hdrop]
    decide
  rintro (hnone | ⟨-, hall⟩)
  · refine hnone (List.replicate 1023 0x61) ?_ ?_
    · rw [splitOn_longLine]
      exact List.mem_cons_of_mem _ (List.mem_singleton_self _)
    · rw [List.replicate_succ, ← List.singleton_append]
      exact (List.prefix_append _ _).isInfix
  · refine hall hdata bufSize hbreak ?_ ?_
    · rw [hmore]
      exact List.cons_ne_nil _ _
    · rw [hmore]
      exact (List.suffix_append _ _).isInfix

/-- A line that contains the pattern and is cut at a stale newline, and one that starts with a
negative `char`. -/
theorem do_one_file_misreports :
    (¬ ∃ n, ∀ fuel, n ≤ fuel →
      doOneFile (fileSys longLine) (.ofList [0x61]) (.ofList [0x66]) (fun _ ↦ newline) fuel =
        some (0, grepOutput (cstring (.ofList [0x66])) [0x61] longLine)) ∧
    ¬ ∃ n, ∀ fuel, n ≤ fuel →
      doOneFile (fileSys [0xe9]) (.ofList [0xe9]) (.ofList [0x66]) (fun _ ↦ 0) fuel =
        some (0, grepOutput (cstring (.ofList [0x66])) [0xe9] [0xe9]) := by
  constructor
  · rw [reports_fileSys_iff _ _ _ _ ?_ ?_ (by simp) (by decide) (by decide)]
    · exact not_reportable_longLine rfl
    · intro x hx
      rw [longLine, List.mem_cons, List.mem_cons, List.mem_replicate] at hx
      rcases hx with rfl | rfl | ⟨-, rfl⟩ <;> decide
    · rw [splitOn_longLine]
      intro l hl
      rcases List.mem_cons.mp hl with rfl | hl
      · decide
      · rw [List.mem_singleton.mp hl, List.length_replicate]
        decide
  · have hpieces : ([0xe9] : List UInt8).splitOn newline = [[0xe9]] := by decide
    rw [reports_fileSys_iff _ _ _ _ (by simp) (by rw [hpieces]; decide) (by simp) (by decide)
      (by decide)]
    rintro (hnone | ⟨hlow, -⟩)
    · exact hnone [0xe9] (by rw [hpieces]; exact List.mem_singleton_self _) List.infix_rfl
    · exact absurd hlow (by decide)

end Illinix.Grep
