import Illinix.Process.Args

/-!
# The two `getargs`

A program is built for this kernel or for Linux, where `ece391emulate.c` stands in for the system
calls.  The kernel's `getargs` copies the text in the PCB, as many bytes as fit into the buffer,
and always succeeds.  The one of the emulation writes the words of `argv` with spaces between them,
counts down the room that is left, and fails if the text with its NUL does not fit.

`getargs_agree_iff` says that a program can tell the two apart exactly when its buffer is too small.
-/

namespace Illinix

open Base

/-- What a `getargs` returns, and the memory from `buf` on after it. -/
structure GetArgsEnd where
  ret : Int
  buf : Bytes

/-! ## The kernel -/

/-- The loop of `getargs`, `n` bytes before its end. -/
def getargsStores (args : Bytes) : Nat → Nat → List (Nat × UInt8)
  | 0, _ => []
  | n + 1, i => (i, args i) :: getargsStores args n (i + 1)

/-- `getargs`. -/
def getargs (args buf : Bytes) (nbytes : Int) : GetArgsEnd :=
  let toread := if nbytes > argsArrSize then (argsArrSize : Int) else nbytes
  ⟨0, applyLog buf (getargsStores args toread.toNat 0)⟩

/-! ## The emulation -/

/-- The loop of `ece391_strcpy`; `2 ^ 32` is its bound as for `strlen`. -/
def strcpyStores (src : Bytes) : Nat → Nat → Nat → List (Nat × UInt8)
  | 0, _, _ => []
  | fuel + 1, dst, i =>
      (dst, src i) :: if src i = 0 then [] else strcpyStores src fuel (dst + 1) (i + 1)

/-- What stands behind the loop of `ece391_getargs`; `buf` has moved by `off`. -/
def getargsTail (off : Nat) (nbytes : Int) (buf : Bytes) : GetArgsEnd :=
  if nbytes < 1 then ⟨-1, buf⟩ else ⟨0, Function.update buf off 0⟩

/-- The loop of `ece391_getargs`, which takes at most `argc` rounds. -/
def getargsLoop (argv : Nat → Bytes) (argc : Nat) : Nat → Nat → Nat → Int → Bytes → GetArgsEnd
  | 0, _, off, nbytes, buf => getargsTail off nbytes buf
  | fuel + 1, idx, off, nbytes, buf =>
      if idx < argc then
        let len := strlen (argv idx)
        if (len : Int) > nbytes then ⟨-1, buf⟩
        else
          let buf := applyLog buf (strcpyStores (argv idx) (2 ^ 32) off 0)
          let off := off + len
          let nbytes := nbytes - len
          if idx + 1 ≥ argc then getargsTail off nbytes buf
          else if nbytes < 1 then ⟨-1, buf⟩
          else
            getargsLoop argv argc fuel (idx + 1) (off + 1) (nbytes - 1)
              (Function.update buf off 0x20)
      else getargsTail off nbytes buf

/-- `ece391_getargs`. -/
def ece391Getargs (argv : Nat → Bytes) (argc : Nat) (buf : Bytes) (nbytes : Int) : GetArgsEnd :=
  getargsLoop argv argc argc 1 0 nbytes buf

/-- Two calls with a buffer of `nbytes` agree: they return the same, and if that is 0 they leave
the same string in the buffer. -/
def GetArgsEnd.Agree (nbytes : Int) (e e' : GetArgsEnd) : Prop :=
  e.ret = e'.ret ∧
    (e.ret = 0 → ∃ s : List UInt8, e.buf.Holds s ∧ e'.buf.Holds s ∧ (s.length : Int) < nbytes)

/-- The words with single spaces between them. -/
def joinWords (words : List (List UInt8)) : List UInt8 := [0x20].intercalate words

/-! ## The stores -/

theorem getargsStores_eq (args : Bytes) (n i : Nat) :
    getargsStores args n i = logAt i ((List.range' i n).map args) := by
  induction n generalizing i with
  | zero => rfl
  | succ n ih => rw [getargsStores, ih, List.range'_succ, List.map_cons, logAt]

theorem strcpyStores_eq {src : Bytes} {l : List UInt8} {fuel dst i : Nat} (hfuel : l.length < fuel)
    (hne : ∀ x ∈ l, x ≠ 0) (hget : ∀ j, j ≤ l.length → src (i + j) = l.getD j 0) :
    strcpyStores src fuel dst i = logAt dst (l ++ [0]) := by
  obtain ⟨fuel, rfl⟩ := Nat.exists_eq_succ_of_ne_zero (Nat.ne_zero_of_lt hfuel)
  have hfirst : src i = l.getD 0 0 := hget 0 (Nat.zero_le _)
  induction l generalizing fuel dst i with
  | nil =>
      rw [strcpyStores, hfirst]
      rfl
  | cons x l ih =>
      obtain ⟨fuel, rfl⟩ := Nat.exists_eq_succ_of_ne_zero
        (Nat.ne_zero_of_lt (Nat.lt_of_succ_lt_succ hfuel))
      have hrest : ∀ j, j ≤ l.length → src (i + 1 + j) = l.getD j 0 := fun j hj ↦
        Bytes.getD_tail hget hj
      rw [strcpyStores, hfirst, List.getD_cons_zero, if_neg (hne x List.mem_cons_self),
        ih (fun y hy ↦ hne y (List.mem_cons_of_mem x hy)) hrest fuel
          (Nat.lt_of_succ_lt_succ hfuel) (hrest 0 (Nat.zero_le _))]
      rfl

/-! ## What the calls leave in the buffer -/

/-- The kernel's call leaves the text if the text and its NUL fit. -/
theorem getargs_holds {args : Bytes} {text : List UInt8} (hargs : args.Holds text)
    (hlen : text.length < argsArrSize) (buf : Bytes) {nbytes : Int} (hn : text.length < nbytes) :
    (getargs args buf nbytes).buf.Holds text := by
  refine ⟨hargs.1, fun j hj ↦ ?_⟩
  have hfit : ∀ toread : Int, text.length < toread →
      applyLog buf (getargsStores args toread.toNat 0) j = text.getD j 0 := by
    intro toread hread
    have hin : j < ((List.range' 0 toread.toNat).map args).length := by
      rw [List.length_map, List.length_range']
      omega
    rw [getargsStores_eq, applyLog_logAt_zero, List.getD_eq_getElem _ _ hin, List.getElem_map,
      List.getElem_range', Nat.zero_add, Nat.one_mul]
    exact hargs.2 j hj
  simp only [getargs]
  split
  · exact hfit _ (Int.ofNat_lt.mpr hlen)
  · exact hfit _ hn

section Emulation

variable {argv : Nat → Bytes}

/-- One word of the loop: its copy, and what is stored over the NUL behind it. -/
theorem strcpy_then {w : List UInt8} {src : Bytes} (hw : src.Holds w) (hlen : w.length < 2 ^ 32)
    (buf : Bytes) (off : Nat) (c : UInt8) :
    Function.update (applyLog buf (strcpyStores src (2 ^ 32) off 0)) (off + w.length) c =
      applyLog buf (logAt off (w ++ [c])) := by
  have hget : ∀ j, j ≤ w.length → src (0 + j) = w.getD j 0 := fun j hj ↦ by
    rw [Nat.zero_add, hw.2 j hj]
  rw [strcpyStores_eq hlen hw.1 hget, update_applyLog_logAt]

/-- The end of the emulation's call, `n` bytes after the start of the last word. -/
theorem getargsTail_eq (off n : Nat) (nbytes : Int) (buf : Bytes) :
    getargsTail (off + n) (nbytes - n) buf =
      if (n : Int) < nbytes then ⟨0, Function.update buf (off + n) 0⟩ else ⟨-1, buf⟩ := by
  rw [getargsTail]
  by_cases h : (n : Int) < nbytes
  · rw [if_pos h, if_neg (by omega)]
  · rw [if_neg h, if_pos (by omega)]

/-- The loop over the words `words`, of which the first is `argv[idx]`. -/
theorem getargsLoop_spec (words : List (List UInt8)) {fuel idx : Nat} (off : Nat) (nbytes : Int)
    (buf : Bytes) (hfuel : words.length < fuel)
    (hargv : ∀ i (h : i < words.length), (argv (idx + i)).Holds words[i])
    (hlen : (joinWords words).length < 2 ^ 32) :
    (((joinWords words).length : Int) < nbytes →
      getargsLoop argv (idx + words.length) fuel idx off nbytes buf =
        ⟨0, applyLog buf (logAt off (joinWords words ++ [0]))⟩) ∧
    (¬ ((joinWords words).length : Int) < nbytes →
      (getargsLoop argv (idx + words.length) fuel idx off nbytes buf).ret = -1) := by
  obtain ⟨fuel, rfl⟩ := Nat.exists_eq_succ_of_ne_zero (Nat.ne_zero_of_lt hfuel)
  induction words generalizing fuel idx off nbytes buf with
  | nil =>
      have htail := getargsTail_eq off 0 nbytes buf
      rw [getargsLoop, if_neg (by simp)]
      rw [Nat.add_zero, Int.natCast_zero, Int.sub_zero] at htail
      rw [htail]
      exact ⟨fun h ↦ if_pos h, fun h ↦ congrArg GetArgsEnd.ret (if_neg h)⟩
  | cons w words ih =>
      have hw : (argv idx).Holds w := hargv 0 (Nat.succ_pos _)
      have hwlen : w.length ≤ (joinWords (w :: words)).length := by
        cases words with
        | nil => simp [joinWords]
        | cons w' words => simp [joinWords]
      have hstrlen : strlen (argv idx) = w.length := hw.strlen_eq (hwlen.trans_lt hlen)
      rw [getargsLoop, if_pos (by simp), hstrlen]
      dsimp only
      by_cases hroom : (w.length : Int) > nbytes
      · rw [if_pos hroom]
        exact ⟨fun h ↦ by omega, fun _ ↦ rfl⟩
      · rw [if_neg hroom]
        cases words with
        | nil =>
            have hjoin : joinWords [w] = w := List.intercalate_singleton
            rw [if_pos (by simp), getargsTail_eq, hjoin,
              strcpy_then hw (hwlen.trans_lt hlen) buf off 0]
            exact ⟨fun h ↦ if_pos h, fun h ↦ congrArg GetArgsEnd.ret (if_neg h)⟩
        | cons w' words =>
            have hjoin : joinWords (w :: w' :: words) =
                w ++ [0x20] ++ joinWords (w' :: words) := List.intercalate_cons_cons
            have hsum : (joinWords (w :: w' :: words)).length =
                w.length + 1 + (joinWords (w' :: words)).length := by
              rw [hjoin, List.length_append, List.length_append, List.length_singleton]
            rw [if_neg (by simp)]
            by_cases hspace : nbytes - w.length < 1
            · rw [if_pos hspace]
              exact ⟨fun h ↦ by omega, fun _ ↦ rfl⟩
            · rw [if_neg hspace, strcpy_then hw (hwlen.trans_lt hlen) buf off 0x20]
              have hrest : ∀ i (h : i < (w' :: words).length),
                  (argv (idx + 1 + i)).Holds (w' :: words)[i] := fun i hi ↦ by
                have hi' := hargv (i + 1) (Nat.succ_lt_succ hi)
                rwa [← Nat.add_assoc, Nat.add_right_comm] at hi'
              have hargc : idx + (w :: w' :: words).length = idx + 1 + (w' :: words).length := by
                rw [List.length_cons, Nat.add_assoc, Nat.add_comm 1]
              obtain ⟨fuel, rfl⟩ := Nat.exists_eq_succ_of_ne_zero
                (Nat.ne_zero_of_lt (Nat.lt_of_succ_lt_succ hfuel))
              obtain ⟨hok, hfail⟩ := ih (off + w.length + 1) (nbytes - w.length - 1)
                (applyLog buf (logAt off (w ++ [0x20]))) hrest (by omega) fuel
                (Nat.lt_of_succ_lt_succ hfuel)
              rw [hargc]
              refine ⟨fun h ↦ ?_, fun h ↦ hfail (by omega)⟩
              rw [hok (by omega), ← applyLog_append, hjoin, List.append_assoc _ _ [0],
                logAt_append off (w ++ [0x20]), List.length_append, List.length_singleton,
                ← Nat.add_assoc]

end Emulation

/-- **When the two calls agree.**  Take any words whose text is shorter than `args`, that text in
`args` and the words in `argv` behind the name of the program, and any size and contents of the
buffer.  The calls agree if and only if the text is shorter than the buffer. -/
theorem getargs_agree_iff (words : List (List UInt8)) (args : Bytes) (argv : Nat → Bytes)
    (hlen : (joinWords words).length < argsArrSize) (hargs : args.Holds (joinWords words))
    (hargv : ∀ i (h : i < words.length), (argv (1 + i)).Holds words[i])
    (nbytes : Int) (buf buf' : Bytes) :
    (getargs args buf nbytes).Agree nbytes (ece391Getargs argv (1 + words.length) buf' nbytes) ↔
      ((joinWords words).length : Int) < nbytes := by
  have hsmall : (joinWords words).length < 2 ^ 32 := hlen.trans (by decide)
  obtain ⟨hok, hfail⟩ := getargsLoop_spec words 0 nbytes buf' (Nat.lt_one_add_iff.mpr (Nat.le_refl _))
    hargv hsmall
  constructor
  · rintro ⟨hret, -⟩
    by_contra hbig
    have hneg : (0 : Int) = -1 := hret.trans (hfail hbig)
    omega
  · intro hfit
    have hholds := Bytes.holds_applyLog buf' 0 hargs.1
    rw [Bytes.at_zero] at hholds
    rw [ece391Getargs, hok hfit]
    exact ⟨rfl, fun _ ↦ ⟨joinWords words, getargs_holds hargs hlen buf hfit, hholds, hfit⟩⟩

/-- The words `a` and `b`, in a buffer with no byte to spare. -/
theorem getargs_agree_exact_fit :
    (joinWords [[0x61], [0x62]]).length < argsArrSize ∧
      (getargs (Bytes.ofList (joinWords [[0x61], [0x62]])) (fun _ ↦ 0) 4).Agree 4
        (ece391Getargs (fun i ↦ Bytes.ofList [UInt8.ofNat (0x60 + i)]) 3 (fun _ ↦ 0) 4) := by
  have hargs : Bytes.Holds (Bytes.ofList (joinWords [[0x61], [0x62]])) (joinWords [[0x61], [0x62]]) :=
    Bytes.holds_ofList (by simp [joinWords])
  refine ⟨by decide, (getargs_agree_iff [[0x61], [0x62]] _ _ (by decide) hargs ?_ 4 _ _).mpr
    (by decide)⟩
  rintro (- | - | i) hi
  · exact Bytes.holds_ofList (l := [0x61]) (by simp)
  · exact Bytes.holds_ofList (l := [0x62]) (by simp)
  · exact absurd hi (by simp)

/-- In a buffer without room for the NUL the kernel succeeds and the emulation does not. -/
theorem getargs_disagree :
    (getargs (Bytes.ofList [0x61]) (fun _ ↦ 0) 1).ret = 0 ∧
      (ece391Getargs (fun _ ↦ Bytes.ofList [0x61]) 2 (fun _ ↦ 0) 1).ret = -1 ∧
      ¬ (getargs (Bytes.ofList [0x61]) (fun _ ↦ 0) 1).Agree 1
        (ece391Getargs (fun _ ↦ Bytes.ofList [0x61]) 2 (fun _ ↦ 0) 1) := by
  have hword : Bytes.Holds (Bytes.ofList [0x61]) [0x61] := Bytes.holds_ofList (by simp)
  have hret : (ece391Getargs (fun _ ↦ Bytes.ofList [0x61]) 2 (fun _ ↦ 0) 1).ret = -1 := by
    refine (getargsLoop_spec [[0x61]] 0 1 (fun _ ↦ 0) (by decide) (fun i hi ↦ ?_) (by decide)).2
      (by decide)
    obtain rfl : i = 0 := Nat.lt_one_iff.mp hi
    exact hword
  refine ⟨rfl, hret, fun hagree ↦ ?_⟩
  have hneg : (0 : Int) = -1 := hagree.1.trans hret
  omega

end Illinix
