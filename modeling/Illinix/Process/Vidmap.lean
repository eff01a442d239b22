import Illinix.Process.Load

/-!
# `vidmap` as a store

`vidmap` changes the page tables and then stores the address of the window through the pointer
that the program passed.  Its check compares that pointer with the two ends of the user page, but
the store is four bytes wide, and the end itself passes.  A pointer into the last three bytes, or
one byte behind them, gets the video page mapped and then faults.

`vidmapEnd` is the call with the store made byte by byte through the page tables, and
`vidmap_eq` says that it is what the state machine of the kernel does.  `vidmap_all_or_nothing_iff`
says which pointers are served or refused as a whole.
-/

namespace Illinix

open Base

/-- Both levels that `v` is translated through have the write bit. -/
def writable (pt : PageTableAddr) (ram : Nat → Nat → Nat) (pg : Paging) (v : Nat) : Bool :=
  let pde := pg.pageDir (v / 2 ^ 22)
  pde.testBit 1 && (pde.testBit 7 ||
    (tableEntry pt ram pg (pde &&& (2 ^ 32 - 2 ^ 12)) (v / 2 ^ 12 % 2 ^ 10)).testBit 1)

/-- A `movl` to memory: the processor translates the whole word before it stores any of it. -/
def storeWord (tr : Nat → Option Nat) (v w : Nat) : CopyRun UInt8 :=
  let run := copyBytes tr (2 ^ 32) v (wordBytes w)
  match run.fault with
  | none => run
  | some a => ⟨[], some a⟩

/-- What a `vidmap` ends with; it has no result where the store faults. -/
structure VidmapEnd where
  ret : Option Int
  paging : Paging
  mem : Nat → UInt8
  stores : List (Store UInt8)

/-- `vidmap`, with its store going through the tables that `set_vidmap` leaves. -/
def vidmapEnd (pt : PageTableAddr) (ram : Nat → Nat → Nat) (pg : Paging) (mem : Nat → UInt8)
    (screenStart : Nat) : VidmapEnd :=
  if ¬ InUserRange screenStart then ⟨some (-1), pg, mem, []⟩
  else
    let pg' := setVidmap pt pg
    let run := storeWord (translate pt ram .supervisor pg') screenStart vidmapAddr
    ⟨if run.fault = none then some 0 else none, pg', applyLog mem run.physLog, run.log⟩

/-- The 4000 bytes from `v` on are the screen, and the program may write them. -/
def IsScreen (pt : PageTableAddr) (ram : Nat → Nat → Nat) (pg : Paging) (v : Nat) : Prop :=
  ∀ j, j < 4000 →
    translate pt ram .user pg (v + j) = some (video + j) ∧ writable pt ram pg (v + j) = true

/-- A `vidmap` that is refused and changes nothing, or that stores a pointer to the screen inside
the user page. -/
def VidmapEnd.AllOrNothing (pt : PageTableAddr) (ram : Nat → Nat → Nat) (pg : Paging)
    (mem : Nat → UInt8) (p : Nat) (e : VidmapEnd) : Prop :=
  (e.ret = some (-1) ∧ e.paging = pg ∧ e.mem = mem) ∨
    (e.ret = some 0 ∧ e.stores.map Store.virt = [p, p + 1, p + 2, p + 3] ∧
      (∀ i, i < 4 → userProgLoc ≤ p + i ∧ p + i < userProgLoc + fourMeg) ∧
      ∃ v, v < 2 ^ 32 ∧ e.stores.map Store.val = wordBytes v ∧ IsScreen pt ram e.paging v)

/-! ## The store -/

section StoreWord

variable {tr : Nat → Option Nat} {v a w : Nat}

/-- A word in a part of memory that is mapped without gaps. -/
theorem storeWord_of_mapped (hsize : v + 4 ≤ 2 ^ 32)
    (htr : ∀ j, j < 4 → tr (v + j) = some (a + j)) :
    (storeWord tr v w).fault = none ∧ (storeWord tr v w).physLog = logAt a (wordBytes w) ∧
      (storeWord tr v w).log.map Store.virt = [v, v + 1, v + 2, v + 3] := by
  have hrun := copyBytes_of_mapped (l := wordBytes w) hsize htr
  rw [Nat.mod_eq_of_lt (by omega)] at hrun
  rw [storeWord, hrun.1]
  exact hrun

/-- A word of which some byte is not mapped. -/
theorem storeWord_of_unmapped {n : Nat} (hn : n < 4) (hsize : v + n < 2 ^ 32)
    (htr : ∀ j, j < n → tr (v + j) = some (a + j)) (hend : tr (v + n) = none) :
    storeWord tr v w = ⟨[], some (v + n)⟩ := by
  obtain ⟨hrun, -⟩ := copyBytes_fault (l := wordBytes w) hn hsize htr hend
  rw [Nat.mod_eq_of_lt (by omega)] at hrun
  rw [storeWord, hrun]

end StoreWord

namespace Layout

variable {pt : PageTableAddr} {last : Option Nat} {vid : Bool} {pg : Paging}
  {ram : Nat → Nat → Nat} {m : Mode} {q p : Nat}

/-- The user page, byte by byte, -/
theorem translate_userPage (h : Layout pt (some q) vid pg) (hq : q < maxNumProcesses)
    (hlo : userProgLoc ≤ p) (hhi : p < userProgLoc + fourMeg) :
    translate pt ram m pg p = some (userFrame q + (p - userProgLoc)) := by
  simp only [userProgLoc, fourMeg] at hlo hhi ⊢
  have hoff : p % 2 ^ 22 = p - 0x08000000 := by omega
  rw [h.translate_user hq (by omega), hoff]

/-- and the end of it. -/
theorem translate_userEnd (h : Layout pt last vid pg) :
    translate pt ram m pg (userProgLoc + fourMeg) = none := by
  apply translate_absent
  have hslot : (userProgLoc + fourMeg) / 2 ^ 22 = 33 := by decide
  rw [hslot]
  exact h.dir_other 33 (by decide) (by decide) (by decide) (by decide) (by decide)

/-- Before the first process there is no user page. -/
theorem translate_noUser (h : Layout pt none vid pg) (hp : InUserRange p) :
    translate pt ram m pg p = none := by
  obtain ⟨-, hlo, hhi⟩ := hp
  rcases Nat.eq_or_lt_of_le hhi with rfl | hlt
  · exact h.translate_userEnd
  · apply translate_absent
    simp only [userProgLoc, fourMeg] at hlo hlt
    have hslot : p / 2 ^ 22 = 32 := by omega
    rw [hslot, h.dir_user, Option.elim_none]

/-- What `set_vidmap` returns is the address of the screen. -/
theorem isScreen_vidmapAddr (h : Layout pt last true pg) : IsScreen pt ram pg vidmapAddr := by
  intro j hj
  have haddr : vidmapAddr = 0x21000 := rfl
  have hslot : (vidmapAddr + j) / 2 ^ 22 = 0 := by omega
  have hentry : (vidmapAddr + j) / 2 ^ 12 % 2 ^ 10 = 33 := by omega
  have hoff : (vidmapAddr + j) % 2 ^ 12 = j := by omega
  have hdir : pg.pageDir ((vidmapAddr + j) / 2 ^ 22) = pt.addr ||| 0x7 := by
    rw [hslot, h.dir_zero, if_pos rfl]
  constructor
  · rw [h.translate_shared hdir (by decide) (by decide), hentry, hoff, if_pos]
    exact ⟨by decide, Or.inr ⟨rfl, rfl⟩⟩
  · have hbit : (pt.addr ||| 0x7).testBit 1 = true := by
      rw [testBit_lor_aligned pt.aligned (by decide)]
      decide
    have hmask : (pt.addr ||| 0x7) &&& (2 ^ 32 - 2 ^ 12) = pt.addr :=
      land_highMask_lor pt.aligned (by decide) (by decide) pt.lt
    rw [writable, hdir, hbit, hmask, tableEntry, if_pos rfl, hentry, h.table_vid, if_pos rfl]
    have hvideo : (video ||| 0x7).testBit 1 = true := by decide
    rw [hvideo, Bool.or_true, Bool.and_true]

/-- A word that fits into the user page is stored there, -/
theorem storeWord_user (h : Layout pt (some q) vid pg) (hq : q < maxNumProcesses)
    (ram : Nat → Nat → Nat) (m : Mode) (hlo : userProgLoc ≤ p)
    (hhi : p + 4 ≤ userProgLoc + fourMeg) (w : Nat) :
    (storeWord (translate pt ram m pg) p w).fault = none ∧
      (storeWord (translate pt ram m pg) p w).physLog =
        logAt (userFrame q + (p - userProgLoc)) (wordBytes w) ∧
      (storeWord (translate pt ram m pg) p w).log.map Store.virt = [p, p + 1, p + 2, p + 3] := by
  refine storeWord_of_mapped ?_ fun j hj ↦ ?_
  · exact hhi.trans (by decide)
  · rw [h.translate_userPage hq (by omega) (by omega), Nat.sub_add_comm hlo, Nat.add_assoc]

/-- and one that does not fit faults at its end. -/
theorem storeWord_userEnd (h : Layout pt (some q) vid pg) (hq : q < maxNumProcesses)
    (ram : Nat → Nat → Nat) (m : Mode) (hp : InUserRange p)
    (hhi : ¬ p + 4 ≤ userProgLoc + fourMeg) (w : Nat) :
    storeWord (translate pt ram m pg) p w = ⟨[], some (userProgLoc + fourMeg)⟩ := by
  obtain ⟨-, hlo, hle⟩ := hp
  obtain ⟨n, hn⟩ := Nat.exists_eq_add_of_le hle
  rw [hn]
  refine storeWord_of_unmapped (a := userFrame q + (p - userProgLoc)) (by omega) ?_
    (fun j hj ↦ ?_) ?_
  · rw [← hn]
    decide
  · rw [h.translate_userPage hq (by omega) (by omega), Nat.sub_add_comm hlo, Nat.add_assoc]
  · rw [← hn]
    exact h.translate_userEnd

/-- Before the first process the store faults at once. -/
theorem storeWord_noUser (h : Layout pt none vid pg) (ram : Nat → Nat → Nat) (m : Mode)
    (hp : InUserRange p) (w : Nat) :
    storeWord (translate pt ram m pg) p w = ⟨[], some p⟩ := by
  have hlt : p + 0 < 2 ^ 32 := hp.2.2.trans_lt (by decide)
  exact storeWord_of_unmapped (a := 0) (by decide) hlt (fun j hj ↦ absurd hj (Nat.not_lt_zero j))
    (h.translate_noUser hp)

end Layout

/-! ## `vidmap` -/

section Vidmap

variable {pt : PageTableAddr} {vid : Bool} {pg : Paging} {ram : Nat → Nat → Nat} {p : Nat}

theorem vidmapEnd_of_inUserRange {mem : Nat → UInt8} (hp : InUserRange p) :
    vidmapEnd pt ram pg mem p =
      ⟨if (storeWord (translate pt ram .supervisor (setVidmap pt pg)) p vidmapAddr).fault = none then
          some 0 else none,
        setVidmap pt pg,
        applyLog mem
          (storeWord (translate pt ram .supervisor (setVidmap pt pg)) p vidmapAddr).physLog,
        (storeWord (translate pt ram .supervisor (setVidmap pt pg)) p vidmapAddr).log⟩ :=
  if_neg (not_not_intro hp)

/-- A pointer that passes the check, and a store that faults. -/
theorem not_allOrNothing_of_fault {mem : Nat → UInt8} {a : Nat} (hp : InUserRange p)
    (hstore : storeWord (translate pt ram .supervisor (setVidmap pt pg)) p vidmapAddr =
      ⟨[], some a⟩) : ¬ (vidmapEnd pt ram pg mem p).AllOrNothing pt ram pg mem p := by
  rw [vidmapEnd_of_inUserRange hp, hstore]
  rintro (⟨hret, -, -⟩ | ⟨hret, -⟩) <;> cases hret

/-- The tables and the memory after a `vidmap` with a pointer to a word of the user page. -/
theorem vidmapEnd_user {q : Nat} (h : Layout pt (some q) vid pg) (hq : q < maxNumProcesses)
    (ram : Nat → Nat → Nat) (mem : Nat → UInt8) (hp : InUserRange p)
    (hhi : p + 4 ≤ userProgLoc + fourMeg) :
    (vidmapEnd pt ram pg mem p).ret = some 0 ∧
      (vidmapEnd pt ram pg mem p).paging = setVidmap pt pg ∧
      (vidmapEnd pt ram pg mem p).mem =
        storeBytes mem (userFrame q + (p - userProgLoc)) (wordBytes vidmapAddr) := by
  obtain ⟨hok, hphys, -⟩ := h.setVidmap.storeWord_user hq ram .supervisor hp.2.1 hhi vidmapAddr
  rw [vidmapEnd_of_inUserRange hp]
  refine ⟨if_pos hok, rfl, ?_⟩
  rw [← applyLog_logAt, ← hphys]

theorem allOrNothing_user {q : Nat} (h : Layout pt (some q) vid pg) (hq : q < maxNumProcesses)
    (mem : Nat → UInt8) (hp : InUserRange p) (hhi : p + 4 ≤ userProgLoc + fourMeg) :
    (vidmapEnd pt ram pg mem p).AllOrNothing pt ram pg mem p := by
  have hlo := hp.2.1
  obtain ⟨hok, hphys, hvirt⟩ := h.setVidmap.storeWord_user hq ram .supervisor hlo hhi vidmapAddr
  rw [vidmapEnd_of_inUserRange hp]
  refine Or.inr ⟨if_pos hok, hvirt, fun i hi ↦ ⟨by omega, by omega⟩, vidmapAddr, by decide, ?_,
    h.setVidmap.isScreen_vidmapAddr⟩
  have hvals := congrArg (List.map Prod.snd) hphys
  rw [map_snd_logAt, CopyRun.physLog, List.map_map] at hvals
  exact hvals

/-- The state machine of the kernel makes the same call. -/
theorem vidmap_eq {M : Machine} {k : Kernel} {q : Nat} (h : Layout M.pt (some q) vid k.paging)
    (hq : q < maxNumProcesses) (ram : Nat → Nat → Nat) (f : Frame) (l : Locals) (p : Nat) :
    vidmap M k f l p =
      let e := vidmapEnd M.pt ram k.paging k.mem p
      match e.ret with
      | some r => some (.stays (some r), { k with paging := e.paging, mem := e.mem })
      | none => halt M { k with paging := e.paging } f l l.ebx := by
  rw [vidmap]
  by_cases hp : InUserRange p
  · rw [if_neg (not_not_intro hp)]
    dsimp only
    by_cases hhi : p + 4 ≤ userProgLoc + fourMeg
    · obtain ⟨hret, hpaging, hmem⟩ := vidmapEnd_user h hq ram k.mem hp hhi
      rw [hret, hpaging, hmem, if_pos (show p + bytesInInt ≤ _ from hhi), h.setVidmap.userBase_eq hq]
    · have hstore := h.setVidmap.storeWord_userEnd hq ram .supervisor hp hhi vidmapAddr
      rw [if_neg (show ¬ p + bytesInInt ≤ _ from hhi), vidmapEnd_of_inUserRange hp, hstore]
      rfl
  · rw [if_pos hp, vidmapEnd, if_pos hp]

end Vidmap

/-- The calls of a first shell. -/
theorem validCalls_first : ValidCalls [.createPage 0] := by
  intro pid hmem
  cases List.mem_singleton.mp hmem
  decide

/-- **When `vidmap` is all or nothing.**  For every pointer and all tables that the three routines
can leave it is if and only if the pointer does not pass the check, or a process has its page and
the four bytes lie in it. -/
theorem vidmap_all_or_nothing_iff (pt : PageTableAddr) (pg : Paging) (ram : Nat → Nat → Nat)
    (calls : List PagingCall) (hc : ValidCalls calls) (mem : Nat → UInt8) (p : Nat) :
    (vidmapEnd pt ram (pagingRun pt pg calls) mem p).AllOrNothing pt ram (pagingRun pt pg calls)
        mem p ↔
      p < 0x08000000 ∨ 0x08400000 < p ∨
        (p ≤ 0x083FFFFC ∧ ∃ pid, PagingCall.createPage pid ∈ calls) := by
  obtain ⟨vid, h⟩ := pagingRun_layout pt pg hc
  by_cases hp : InUserRange p
  · obtain ⟨-, hlo, hhi⟩ := id hp
    simp only [userProgLoc, fourMeg] at hlo hhi
    cases hlast : lastCreated calls with
    | none =>
        rw [hlast] at h
        refine iff_of_false (not_allOrNothing_of_fault hp (h.setVidmap.storeWord_noUser ram _ hp _)) ?_
        rintro (hlt | hgt | ⟨-, pid, hmem⟩)
        · omega
        · omega
        · exact lastCreated_ne_none hmem hlast
    | some q =>
        rw [hlast] at h
        have hmem := lastCreated_mem hlast
        by_cases hfit : p + 4 ≤ userProgLoc + fourMeg
        · refine iff_of_true (allOrNothing_user h (hc q hmem) mem hp hfit) ?_
          simp only [userProgLoc, fourMeg] at hfit
          exact Or.inr (Or.inr ⟨by omega, q, hmem⟩)
        · refine iff_of_false (not_allOrNothing_of_fault hp
            (h.setVidmap.storeWord_userEnd (hc q hmem) ram _ hp hfit _)) ?_
          simp only [userProgLoc, fourMeg] at hfit
          rintro (hlt | hgt | ⟨hle, -⟩) <;> omega
  · have hend : vidmapEnd pt ram (pagingRun pt pg calls) mem p =
        ⟨some (-1), pagingRun pt pg calls, mem, []⟩ := if_pos hp
    rw [hend]
    refine iff_of_true (Or.inl ⟨rfl, rfl, rfl⟩) ?_
    simp only [InUserRange, userProgLoc, fourMeg] at hp
    omega

/-- The first shell passes a pointer to the last word of its page. -/
theorem vidmap_all_or_nothing_last_word :
    ValidCalls [.createPage 0] ∧
      (vidmapEnd tinyMachine.pt (fun _ _ ↦ 0)
        (pagingRun tinyMachine.pt ⟨fun _ ↦ 0, fun _ ↦ 0⟩ [.createPage 0]) (fun _ ↦ 0)
        0x083FFFFC).AllOrNothing tinyMachine.pt (fun _ _ ↦ 0)
        (pagingRun tinyMachine.pt ⟨fun _ ↦ 0, fun _ ↦ 0⟩ [.createPage 0]) (fun _ ↦ 0)
        0x083FFFFC := by
  have hc := validCalls_first
  exact ⟨hc, (vidmap_all_or_nothing_iff _ _ _ _ hc _ _).mpr
    (Or.inr (Or.inr ⟨by decide, 0, List.mem_cons_self⟩))⟩

/-- With a pointer to the end of the page it gets the video page, and then it faults. -/
theorem vidmap_faults_at_end :
    ¬ (vidmapEnd tinyMachine.pt (fun _ _ ↦ 0)
        (pagingRun tinyMachine.pt ⟨fun _ ↦ 0, fun _ ↦ 0⟩ [.createPage 0]) (fun _ ↦ 0)
        0x08400000).AllOrNothing tinyMachine.pt (fun _ _ ↦ 0)
        (pagingRun tinyMachine.pt ⟨fun _ ↦ 0, fun _ ↦ 0⟩ [.createPage 0]) (fun _ ↦ 0)
        0x08400000 := by
  have hp : InUserRange 0x08400000 := by decide
  obtain ⟨vid, h⟩ := pagingRun_layout tinyMachine.pt ⟨fun _ ↦ 0, fun _ ↦ 0⟩ validCalls_first
  exact not_allOrNothing_of_fault hp
    (h.setVidmap.storeWord_userEnd (show 0 < maxNumProcesses by decide) _ _ hp (by decide) _)

end Illinix
