import Illinix.Paging.Tables
import Mathlib.Data.List.Induction

/-!
# Memory isolation by the page tables

`Layout pt last vid pg` is everything the two arrays can hold after `paging_init`
and any sequence of `create_page` and `set_vidmap` calls: `last` is the process of
the last `create_page`, `vid` tells whether `set_vidmap` has been called.  The three
routines preserve it, and translation in a layout is a case split over the four
directory slots in use.
-/

namespace Illinix

/-- The user frame of process `pid`: 4 MB from `8 MB + 4 MB * pid` on. -/
def userFrame (pid : Nat) : Nat := kernelBottom + pid * fourMeg

def maxNumProcesses : Nat := 6

/-- A physical address inside the user frame of `pid`. -/
def InUserFrame (pid a : Nat) : Prop := userFrame pid ≤ a ∧ a < userFrame pid + fourMeg

/-- A physical address inside the 4 KB text-video page. -/
def InVideoPage (a : Nat) : Prop := video ≤ a ∧ a < video + fourKb

section Disjoint

variable {pid pid' a : Nat}

/-- The user frames begin where the kernel ends. -/
theorem InUserFrame.kernelBottom_le (h : InUserFrame pid a) : kernelBottom ≤ a :=
  (Nat.le_add_right _ _).trans h.1

theorem InVideoPage.lt_kernelLoc (h : InVideoPage a) : a < kernelLoc := by
  have hlt := h.2
  simp only [video, fourKb, kernelLoc] at hlt ⊢
  omega

theorem InUserFrame.not_inVideoPage (h : InUserFrame pid a) : ¬ InVideoPage a := by
  intro ha
  have hlt : kernelBottom < kernelLoc := h.kernelBottom_le.trans_lt ha.lt_kernelLoc
  exact absurd hlt (by decide)

/-- No address is in the frames of two processes. -/
theorem InUserFrame.unique (h : InUserFrame pid a) (h' : InUserFrame pid' a) : pid = pid' := by
  obtain ⟨h₁, h₂⟩ := h
  obtain ⟨h₃, h₄⟩ := h'
  simp only [userFrame, kernelBottom, fourMeg] at h₁ h₂ h₃ h₄
  omega

end Disjoint

/-- What the two arrays hold after `paging_init`, the last `create_page` being for
`last` and `vid` telling whether `set_vidmap` has been called. -/
structure Layout (pt : PageTableAddr) (last : Option Nat) (vid : Bool) (pg : Paging) : Prop where
  dir_zero : pg.pageDir 0 = pt.addr ||| (if vid then 0x7 else 0x1)
  dir_one : pg.pageDir 1 = kernelLoc ||| 0x81
  dir_vid : pg.pageDir 31 = if last.isSome then pt.addr ||| 0x7 else 0
  dir_user : pg.pageDir 32 = last.elim 0 fun pid ↦ userFrame pid ||| 0x87
  dir_other : ∀ i, i < 1024 → i ≠ 0 → i ≠ 1 → i ≠ 31 → i ≠ 32 → pg.pageDir i = 0
  table_video : pg.pageTable 184 = video ||| 0x1
  table_vid : pg.pageTable 33 = if vid then video ||| 0x7 else 0
  table_other : ∀ i, i < 1024 → i ≠ 33 → i ≠ 184 → pg.pageTable i = 0

theorem userFrame_aligned (pid : Nat) : 2 ^ 22 ∣ userFrame pid :=
  ⟨2 + pid, by simp only [userFrame, kernelBottom, fourMeg]; omega⟩

theorem userFrame_lt {pid : Nat} (h : pid < maxNumProcesses) : userFrame pid < 2 ^ 32 := by
  simp only [userFrame, kernelBottom, fourMeg, maxNumProcesses] at *
  omega

section CreatePage

variable {pt : PageTableAddr} {pg : Paging} {pid : Nat}

theorem createPage_dir_of_ne {i : Nat} (h31 : i ≠ 31) (h32 : i ≠ 32) :
    (createPage pt pid pg).pageDir i = pg.pageDir i := by
  simp [createPage, userProgramPdirLoc, h31, h32]

theorem createPage_dir_vid : (createPage pt pid pg).pageDir 31 = pt.addr ||| 0x7 := by
  simp [createPage, presentPage, enableUser, Nat.or_assoc]

/-- Slot 32 after `create_page` is the frame of the process, with the page-size,
user, write and present bits. -/
theorem createPage_dir_user (h : pid < maxNumProcesses) :
    (createPage pt pid pg).pageDir 32 = userFrame pid ||| 0x87 := by
  have hflags : enableKernel ||| (enableUser ||| presentPage) = 0x87 := by decide
  simp only [createPage, Paging.setDir_pageDir, userProgramPdirLoc]
  rw [Function.update_of_ne (by decide), Function.update_self, ← userFrame,
    Nat.mod_eq_of_lt (userFrame_lt h), Nat.or_assoc, Nat.or_assoc, hflags]

end CreatePage

namespace Layout

variable {pt : PageTableAddr} {last : Option Nat} {vid : Bool} {pg : Paging}

theorem init (pt : PageTableAddr) (pg : Paging) : Layout pt none false (pagingInit pt pg) where
  dir_zero := by simp [pagingInit, presentPage]
  dir_one := by simp [pagingInit, kernelLoc, enableKernel, presentPage]
  dir_vid := by simp [pagingInit, tableSize]
  dir_user := by simp [pagingInit, tableSize]
  dir_other := by
    intro i hi h0 h1 _ _
    simp [pagingInit, tableSize, hi, h0, h1]
  table_video := by simp [pagingInit, video, fourKb, presentPage]
  table_vid := by simp [pagingInit, video, fourKb, tableSize]
  table_other := by
    intro i hi _ h184
    simp [pagingInit, video, fourKb, tableSize, hi, h184]

theorem createPage {pid : Nat} (hpid : pid < maxNumProcesses) (h : Layout pt last vid pg) :
    Layout pt (some pid) vid (createPage pt pid pg) where
  dir_zero := by rw [createPage_dir_of_ne (by decide) (by decide), h.dir_zero]
  dir_one := by rw [createPage_dir_of_ne (by decide) (by decide), h.dir_one]
  dir_vid := by rw [createPage_dir_vid, if_pos (Option.isSome_some)]
  dir_user := by rw [createPage_dir_user hpid, Option.elim_some]
  dir_other := by
    intro i hi h0 h1 h31 h32
    rw [createPage_dir_of_ne h31 h32, h.dir_other i hi h0 h1 h31 h32]
  table_video := h.table_video
  table_vid := h.table_vid
  table_other := h.table_other

theorem setVidmap (h : Layout pt last vid pg) : Layout pt last true (setVidmap pt pg) where
  dir_zero := by simp [Illinix.setVidmap, enableUser, presentPage, Nat.or_assoc]
  dir_one := by simp [Illinix.setVidmap, h.dir_one]
  dir_vid := by simp [Illinix.setVidmap, h.dir_vid]
  dir_user := by simpa [Illinix.setVidmap] using h.dir_user
  dir_other := by
    intro i hi h0 h1 h31 h32
    simp [Illinix.setVidmap, h0, h.dir_other i hi h0 h1 h31 h32]
  table_video := by simp [Illinix.setVidmap, vidMapLoc, h.table_video]
  table_vid := by simp [Illinix.setVidmap, vidMapLoc, enableUser, presentPage, Nat.or_assoc]
  table_other := by
    intro i hi h33 h184
    simp [Illinix.setVidmap, vidMapLoc, h33, h.table_other i hi h33 h184]

/-! ## Translation in a layout -/

variable {ram : Nat → Nat → Nat} {m : Mode} {v : Nat}

/-- Slot 1: the kernel's 4 MB page, which user mode cannot use. -/
theorem translate_kernel (h : Layout pt last vid pg) (hv : v / 2 ^ 22 = 1) :
    translate pt ram m pg v = if m = .supervisor then some v else none := by
  have he : pg.pageDir (v / 2 ^ 22) = kernelLoc ||| 0x81 := by rw [hv, h.dir_one]
  rw [translate_large he ⟨1, rfl⟩ (by decide) (by decide) (by decide)]
  have hsum : kernelLoc + v % 2 ^ 22 = v := by
    have := Nat.div_add_mod v (2 ^ 22)
    rw [hv] at this
    exact this
  cases m with
  | supervisor => rw [hsum]; rfl
  | user => rfl

/-- Slot 32: the user page, mapped to the frame of the last `create_page`. -/
theorem translate_user {pid : Nat} (h : Layout pt (some pid) vid pg)
    (hpid : pid < maxNumProcesses) (hv : v / 2 ^ 22 = 32) :
    translate pt ram m pg v = some (userFrame pid + v % 2 ^ 22) := by
  have he : pg.pageDir (v / 2 ^ 22) = userFrame pid ||| 0x87 := by
    rw [hv, h.dir_user, Option.elim_some]
  rw [translate_large he (userFrame_aligned pid) (userFrame_lt hpid) (by decide) (by decide)]
  cases m <;> rfl

/-- The shared table, from a directory slot whose flags are `f`: only two of its
entries are ever present. -/
theorem translate_shared {f : Nat} (h : Layout pt last vid pg)
    (he : pg.pageDir (v / 2 ^ 22) = pt.addr ||| f) (hf : f < 2 ^ 12)
    (hps : f.testBit 7 = false) :
    translate pt ram m pg v =
      if allows m f ∧ ((v / 2 ^ 12 % 2 ^ 10 = 184 ∧ m = .supervisor) ∨
          (v / 2 ^ 12 % 2 ^ 10 = 33 ∧ vid = true))
      then some (video + v % 2 ^ 12) else none := by
  rw [translate_table he hf hps]
  have hlt : v / 2 ^ 12 % 2 ^ 10 < 1024 := Nat.mod_lt _ (by decide)
  generalize v / 2 ^ 12 % 2 ^ 10 = i at hlt
  have hmask : ∀ g, g < 2 ^ 12 → (video ||| g) &&& (2 ^ 32 - 2 ^ 12) = video := fun g hg ↦
    Base.land_highMask_lor ⟨184, rfl⟩ hg (by decide) (by decide)
  have hallow : ∀ g, allows m (video ||| g) = allows m g := fun g ↦ allows_lor m ⟨184, rfl⟩
  by_cases h184 : i = 184
  · subst h184
    rw [h.table_video, hmask _ (by decide), hallow]
    cases m <;> cases allows _ f <;> simp
  · by_cases h33 : i = 33
    · subst h33
      rw [h.table_vid]
      cases vid with
      | false => simp
      | true =>
          rw [if_pos rfl, hmask _ (by decide), hallow]
          cases allows m f <;> simp
    · rw [h.table_other i hlt h33 h184]
      simp [h184, h33]

/-- The directory slot of an address that translates at all. -/
theorem slot_of_translate {a : Nat} (h : Layout pt last vid pg) (hv : v < 2 ^ 32)
    (ht : translate pt ram m pg v = some a) :
    v / 2 ^ 22 = 0 ∨ v / 2 ^ 22 = 1 ∨ v / 2 ^ 22 = 31 ∨ v / 2 ^ 22 = 32 := by
  by_contra hne
  push Not at hne
  obtain ⟨h0, h1, h31, h32⟩ := hne
  have hlt : v / 2 ^ 22 < 1024 := by omega
  rw [translate_absent (h.dir_other _ hlt h0 h1 h31 h32)] at ht
  cases ht

/-- What user mode can reach: the frame of the last `create_page` through slot 32,
and the video page through the shared table once `set_vidmap` has been called. -/
theorem user_reaches {a : Nat} (h : Layout pt last vid pg)
    (hlast : ∀ pid, last = some pid → pid < maxNumProcesses) (hv : v < 2 ^ 32)
    (ht : translate pt ram .user pg v = some a) :
    (∃ pid, last = some pid ∧ InUserFrame pid a) ∨ (vid = true ∧ InVideoPage a) := by
  have hshared : ∀ f, f < 2 ^ 12 → f.testBit 7 = false →
      pg.pageDir (v / 2 ^ 22) = pt.addr ||| f → vid = true ∧ InVideoPage a := by
    intro f hf hps he
    rw [h.translate_shared he hf hps] at ht
    split at ht
    · rename_i hc
      obtain ⟨_, ⟨_, hm⟩ | ⟨_, hvid⟩⟩ := hc
      · cases hm
      · cases ht
        refine ⟨hvid, Nat.le_add_right _ _, ?_⟩
        exact Nat.add_lt_add_left (Nat.mod_lt _ (by decide)) _
    · cases ht
  rcases h.slot_of_translate hv ht with hs | hs | hs | hs
  · refine Or.inr (hshared (if vid then 0x7 else 0x1) ?_ ?_ (by rw [hs, h.dir_zero]))
    · cases vid <;> decide
    · cases vid <;> decide
  · rw [h.translate_kernel hs] at ht
    cases ht
  · cases last with
    | none =>
        have he : pg.pageDir (v / 2 ^ 22) = 0 := by
          rw [hs, h.dir_vid]
          rfl
        rw [translate_absent he] at ht
        cases ht
    | some pid =>
        refine Or.inr (hshared 0x7 (by decide) (by decide) ?_)
        rw [hs, h.dir_vid, if_pos Option.isSome_some]
  · cases last with
    | none =>
        have he : pg.pageDir (v / 2 ^ 22) = 0 := by rw [hs, h.dir_user, Option.elim_none]
        rw [translate_absent he] at ht
        cases ht
    | some pid =>
        rw [h.translate_user (hlast pid rfl) hs] at ht
        cases ht
        refine Or.inl ⟨pid, rfl, Nat.le_add_right _ _, ?_⟩
        exact Nat.add_lt_add_left (Nat.mod_lt _ (by decide)) _

/-- The video page is visible in user mode exactly after a `set_vidmap`. -/
theorem video_visible_iff (h : Layout pt last vid pg)
    (hlast : ∀ pid, last = some pid → pid < maxNumProcesses) :
    (∃ v a, v < 2 ^ 32 ∧ translate pt ram .user pg v = some a ∧ InVideoPage a) ↔ vid = true := by
  constructor
  · rintro ⟨v, a, hv, ht, ha⟩
    rcases h.user_reaches hlast hv ht with ⟨pid, _, hf⟩ | ⟨hvid, _⟩
    · exact absurd ha hf.not_inVideoPage
    · exact hvid
  · intro hvid
    refine ⟨vidmapAddr, video, by decide, ?_, Nat.le_refl _, by decide⟩
    have he : pg.pageDir (vidmapAddr / 2 ^ 22) = pt.addr ||| 0x7 := by
      rw [show vidmapAddr / 2 ^ 22 = 0 by decide, h.dir_zero, if_pos hvid]
    rw [h.translate_shared he (by decide) (by decide), if_pos]
    · rfl
    · exact ⟨by decide, Or.inr ⟨by decide, hvid⟩⟩

/-- The video page at its own address is the kernel's, whoever has asked for it. -/
theorem translate_video (h : Layout pt last vid pg) (hv : InVideoPage v) :
    translate pt ram .supervisor pg v = some v ∧ translate pt ram .user pg v = none := by
  obtain ⟨h₁, h₂⟩ := hv
  simp only [video, fourKb] at h₁ h₂
  have hs : v / 2 ^ 22 = 0 := by omega
  have hi : v / 2 ^ 12 % 2 ^ 10 = 184 := by omega
  have hsum : video + v % 2 ^ 12 = v := by simp only [video]; omega
  have he : pg.pageDir (v / 2 ^ 22) = pt.addr ||| (if vid then 0x7 else 0x1) := by
    rw [hs, h.dir_zero]
  have hf : (if vid then 0x7 else 0x1) < 2 ^ 12 := by cases vid <;> decide
  have hps : (if vid then 0x7 else 0x1 : Nat).testBit 7 = false := by cases vid <;> decide
  constructor
  · rw [h.translate_shared he hf hps, hi, hsum, if_pos]
    exact ⟨by cases vid <;> decide, Or.inl ⟨rfl, rfl⟩⟩
  · rw [h.translate_shared he hf hps, hi, if_neg]
    rintro ⟨_, ⟨_, hm⟩ | ⟨hi', _⟩⟩
    · cases hm
    · cases hi'

end Layout

/-! ## Every sequence of calls -/

/-- The calls that change the tables after `paging_init`. -/
inductive PagingCall
  | createPage (pid : Nat)
  | setVidmap
deriving DecidableEq, Repr

def PagingCall.apply (pt : PageTableAddr) (pg : Paging) : PagingCall → Paging
  | .createPage pid => Illinix.createPage pt pid pg
  | .setVidmap => Illinix.setVidmap pt pg

/-- The process given to the last `create_page` of a sequence. -/
def lastCreated (calls : List PagingCall) : Option Nat :=
  calls.foldl (fun last c ↦ match c with | .createPage pid => some pid | .setVidmap => last) none

/-- `create_page` is only called for process numbers of the process table. -/
def ValidCalls (calls : List PagingCall) : Prop :=
  ∀ pid, PagingCall.createPage pid ∈ calls → pid < maxNumProcesses

/-- The tables after `paging_init` and a sequence of calls. -/
def pagingRun (pt : PageTableAddr) (pg : Paging) (calls : List PagingCall) : Paging :=
  calls.foldl (PagingCall.apply pt) (pagingInit pt pg)

theorem lastCreated_append (calls : List PagingCall) (c : PagingCall) :
    lastCreated (calls ++ [c]) =
      match c with
      | .createPage pid => some pid
      | .setVidmap => lastCreated calls := by
  cases c <;> simp [lastCreated]

theorem lastCreated_mem {calls : List PagingCall} {pid : Nat}
    (h : lastCreated calls = some pid) : PagingCall.createPage pid ∈ calls := by
  induction calls using List.reverseRecOn with
  | nil => cases h
  | append_singleton calls c ih =>
      rw [lastCreated_append] at h
      cases c with
      | createPage p =>
          cases h
          exact List.mem_append_right _ List.mem_cons_self
      | setVidmap => exact List.mem_append_left _ (ih h)

theorem lastCreated_ne_none {calls : List PagingCall} {pid : Nat}
    (h : PagingCall.createPage pid ∈ calls) : lastCreated calls ≠ none := by
  induction calls using List.reverseRecOn with
  | nil => cases h
  | append_singleton calls c ih =>
      rw [lastCreated_append]
      cases c with
      | createPage p => exact Option.some_ne_none p
      | setVidmap =>
          rcases List.mem_append.mp h with hin | hin
          · exact ih hin
          · cases List.mem_singleton.mp hin

theorem pagingRun_layout (pt : PageTableAddr) (pg : Paging) {calls : List PagingCall}
    (hc : ValidCalls calls) :
    ∃ vid, Layout pt (lastCreated calls) vid (pagingRun pt pg calls) := by
  induction calls using List.reverseRecOn with
  | nil => exact ⟨false, Layout.init pt pg⟩
  | append_singleton calls c ih =>
      obtain ⟨vid, h⟩ := ih fun pid hp ↦ hc pid (List.mem_append_left _ hp)
      rw [lastCreated_append]
      simp only [pagingRun, List.foldl_append, List.foldl_cons, List.foldl_nil] at h ⊢
      cases c with
      | createPage pid =>
          exact ⟨vid, h.createPage (hc pid (List.mem_append_right _ List.mem_cons_self))⟩
      | setVidmap => exact ⟨true, h.setVidmap⟩

/-- **Memory isolation.**  After `paging_init` and any sequence of `create_page`
and `set_vidmap` calls, user mode reaches the user frame of the last process and
the video page only; the kernel's 4 MB and the video page at its own address stay
identity mapped for the kernel alone; and the user page is the frame of the last
process. -/
theorem user_isolation (pt : PageTableAddr) (pg : Paging) (ram : Nat → Nat → Nat)
    (calls : List PagingCall) (hc : ValidCalls calls) :
    (∀ v a, v < 2 ^ 32 → translate pt ram .user (pagingRun pt pg calls) v = some a →
      ((∃ pid, lastCreated calls = some pid ∧ InUserFrame pid a) ∨ InVideoPage a) ∧
      ¬ (kernelLoc ≤ a ∧ a < kernelBottom) ∧
      ∀ pid, lastCreated calls ≠ some pid → ¬ InUserFrame pid a) ∧
    (∀ v, (kernelLoc ≤ v ∧ v < kernelBottom) ∨ InVideoPage v →
      translate pt ram .supervisor (pagingRun pt pg calls) v = some v ∧
      translate pt ram .user (pagingRun pt pg calls) v = none) ∧
    (∀ pid k, lastCreated calls = some pid → k < fourMeg →
      translate pt ram .user (pagingRun pt pg calls) (0x08000000 + k) =
        some (userFrame pid + k)) := by
  obtain ⟨vid, h⟩ := pagingRun_layout pt pg hc
  have hlast : ∀ pid, lastCreated calls = some pid → pid < maxNumProcesses :=
    fun pid hp ↦ hc pid (lastCreated_mem hp)
  refine ⟨?_, ?_, ?_⟩
  · intro v a hv ht
    have hreach : (∃ pid, lastCreated calls = some pid ∧ InUserFrame pid a) ∨ InVideoPage a :=
      (h.user_reaches hlast hv ht).imp_right And.right
    refine ⟨hreach, ?_, ?_⟩
    · rintro ⟨hk₁, hk₂⟩
      rcases hreach with ⟨pid, _, hf⟩ | ha
      · exact absurd hk₂ (Nat.not_lt.mpr hf.kernelBottom_le)
      · exact absurd hk₁ (Nat.not_le.mpr ha.lt_kernelLoc)
    · intro pid hne hf
      rcases hreach with ⟨pid', hp', hf'⟩ | ha
      · rw [hf.unique hf'] at hne
        exact hne hp'
      · exact hf.not_inVideoPage ha
  · rintro v (⟨h₁, h₂⟩ | hv)
    · have hs : v / 2 ^ 22 = 1 := by
        simp only [kernelLoc, kernelBottom] at h₁ h₂
        omega
      exact ⟨h.translate_kernel hs, h.translate_kernel hs⟩
    · exact h.translate_video hv
  · intro pid k hp hk
    simp only [fourMeg] at hk
    have hs : (0x08000000 + k) / 2 ^ 22 = 32 := by omega
    have hmod : (0x08000000 + k) % 2 ^ 22 = k := by omega
    rw [hp] at h
    rw [h.translate_user (hlast pid hp) hs, hmod]

/-- The isolation theorem after a first shell, a `vidmap` and a second process. -/
theorem user_isolation_two_processes :
    ValidCalls [.createPage 0, .setVidmap, .createPage 1] ∧
    translate ⟨0x410000, ⟨0x410, rfl⟩, by decide⟩ (fun _ _ ↦ 0) .user
      (pagingRun ⟨0x410000, ⟨0x410, rfl⟩, by decide⟩ ⟨fun _ ↦ 0, fun _ ↦ 0⟩
        [.createPage 0, .setVidmap, .createPage 1]) (0x08000000 + 5) =
      some (userFrame 1 + 5) := by
  have hc : ValidCalls [.createPage 0, .setVidmap, .createPage 1] := by
    intro pid hp
    simp only [List.mem_cons, PagingCall.createPage.injEq, reduceCtorEq, List.not_mem_nil,
      or_false, false_or] at hp
    rcases hp with rfl | rfl <;> decide
  exact ⟨hc, (user_isolation _ _ _ _ hc).2.2 1 5 rfl (by decide)⟩

end Illinix
