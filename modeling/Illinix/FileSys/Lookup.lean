import Illinix.FileSys.Image
import Mathlib.Data.Nat.Find

/-!
# Looking a name up

`read_dentry_by_name` compares as many bytes as the longer of the two names has, cut at
`FILE_NAME_SIZE`; a name in the directory may fill its field without a NUL, and then its `strlen`
runs on into the other fields of the entry.  `read_dentry_by_name_exact` says that the result is
still the exact one: a name is found exactly if it is the name of an entry, and the entry that is
filled in is the first of that name.
-/

namespace Illinix

namespace Image

variable (img : Image)

/-! ## The accessors, with the caller's entry -/

/-- `read_dentry_by_index(index, dentry)`: its result, and the caller's entry after it. -/
def readDentryByIndexInto (index : Nat) (dentry : Dentry) : Int × Dentry :=
  if index > numDirEntries then (-1, dentry)
  else
    (0, ⟨strncpy (img.fileName index) fileNameSize, img.fileType index, img.inodeNum index⟩)

/-- The loop of `read_dentry_by_name`: `remaining` entries are left from `i` on. -/
def readDentryByNameLoop (fname : Bytes) (dentry : Dentry) : Nat → Nat → Int × Dentry
  | 0, _ => (-1, dentry)
  | remaining + 1, i =>
      let fileNameLength := strlen (img.fileName i)
      let longer := if strlen fname > fileNameLength then strlen fname else fileNameLength
      let compared := if longer > fileNameSize then fileNameSize else longer
      if strncmp fname (img.fileName i) compared = 0 then img.readDentryByIndexInto i dentry
      else readDentryByNameLoop fname dentry remaining (i + 1)

/-- `read_dentry_by_name(fname, dentry)`. -/
def readDentryByNameInto (fname : Bytes) (dentry : Dentry) : Int × Dentry :=
  if strlen fname > fileNameSize then (-1, dentry)
  else img.readDentryByNameLoop fname dentry img.numDir 0

/-- The name is compared with entry `i`, and they agree. -/
def Matches (fname : Bytes) (i : Nat) : Prop :=
  strlen fname ≤ fileNameSize ∧
    strncmp fname (img.fileName i) (img.compareLength (strlen fname) i) = 0

/-- The entries of the directory are named as the format says: by 1 to 32 bytes, filled up with
NULs, and with a zero byte in the fields that follow. -/
structure Named : Prop where
  numDir_le : img.numDir ≤ numDirEntries
  nonempty : ∀ i, i < img.numDir → img.fileName i 0 ≠ 0
  padded : ∀ i, i < img.numDir → ∀ j k, j ≤ k → k < fileNameSize → img.fileName i j = 0 →
    img.fileName i k = 0
  /-- `strlen` of a name stops inside of the entry: in the source it has no other bound. -/
  ends : ∀ i, i < img.numDir → ∃ j, fileNameSize ≤ j ∧ j < 64 ∧ img.fileName i j = 0

/-- Entry `i` is the first one with the name. -/
structure IsFirst (name : List UInt8) (i : Nat) : Prop where
  lt : i < img.numDir
  entryName : img.entryName i = name
  first : ∀ j, j < i → img.entryName j ≠ name

variable {img}

/-! ## Names -/

/-- The caller's entry is filled in, or left alone. -/
theorem readDentryByNameInto_eq (fname : Bytes) (dentry : Dentry) :
    img.readDentryByNameInto fname dentry =
      (img.readDentryByName fname).elim (-1, dentry) fun d ↦ (0, d) := by
  have hindex : ∀ i, img.readDentryByIndexInto i dentry =
      (img.readDentryByIndex i).elim (-1, dentry) fun d ↦ (0, d) := by
    intro i
    rw [readDentryByIndexInto, readDentryByIndex]
    split <;> rfl
  have hlength : ∀ i, (if (if strlen fname > strlen (img.fileName i) then strlen fname
      else strlen (img.fileName i)) > fileNameSize then fileNameSize
      else if strlen fname > strlen (img.fileName i) then strlen fname
      else strlen (img.fileName i)) = img.compareLength (strlen fname) i := by
    intro i
    rw [compareLength]
    split <;> split <;> omega
  have hloop : ∀ remaining i, img.readDentryByNameLoop fname dentry remaining i =
      (((List.range' i remaining).find? fun i ↦
        strncmp fname (img.fileName i) (img.compareLength (strlen fname) i) == 0).bind
        img.readDentryByIndex).elim (-1, dentry) fun d ↦ (0, d) := by
    intro remaining
    induction remaining with
    | zero => intro i; rfl
    | succ remaining ih =>
        intro i
        rw [readDentryByNameLoop, List.range'_succ, List.find?_cons, hlength]
        by_cases heq : strncmp fname (img.fileName i) (img.compareLength (strlen fname) i) = 0
        · rw [if_pos heq, heq, hindex]
          rfl
        · rw [if_neg heq, ih, beq_eq_false_iff_ne.mpr heq]
  rw [readDentryByNameInto, readDentryByName]
  split
  · rfl
  · rw [hloop, List.range_eq_range']

theorem entryName_ne_zero (i : Nat) : ∀ x ∈ img.entryName i, x ≠ 0 :=
  ne_zero_of_mem_cstrFrom _ _ _

theorem length_entryName_le (i : Nat) : (img.entryName i).length ≤ fileNameSize :=
  length_cstrFrom_le _ _ _

/-- **The comparison is exact.** -/
theorem matches_iff {fname : Bytes} (hterm : strlen fname < 2 ^ 32) {i : Nat} :
    img.Matches fname i ↔ img.entryName i = cstring fname := by
  constructor
  · rintro ⟨hlen, heq⟩
    have hcstr := (strncmp_eq_zero_iff_cstr hlen (by decide)).mp heq
    rw [cstr_eq_cstring hlen (by decide)] at hcstr
    exact hcstr.symm
  · intro heq
    have hlen : strlen fname ≤ fileNameSize := by
      rw [← length_cstring hterm, ← heq]
      exact length_entryName_le i
    refine ⟨hlen, (strncmp_eq_zero_iff_cstr hlen (by decide)).mpr ?_⟩
    rw [cstr_eq_cstring hlen (by decide)]
    exact heq.symm

namespace Named

variable {fname : Bytes} {dentry : Dentry}

theorem entryName_ne_nil (h : img.Named) {i : Nat} (hi : i < img.numDir) : img.entryName i ≠ [] := by
  rw [entryName, cstr, fileNameSize, cstrFrom, if_neg (h.nonempty i hi)]
  exact List.cons_ne_nil _ _

theorem strncpy_fileName (h : img.Named) {i : Nat} (hi : i < img.numDir) :
    strncpy (img.fileName i) fileNameSize = (List.range fileNameSize).map (img.fileName i) :=
  strncpy_eq_map (h.padded i hi)

/-- The first entry of the name is found. -/
theorem readDentryByName_of_isFirst (h : img.Named) (hterm : strlen fname < 2 ^ 32) {i : Nat}
    (hi : img.IsFirst (cstring fname) i) :
    img.readDentryByName fname =
      some ⟨(List.range fileNameSize).map (img.fileName i), img.fileType i, img.inodeNum i⟩ := by
  have hlen : strlen fname ≤ fileNameSize := by
    rw [← length_cstring hterm, ← hi.entryName]
    exact length_entryName_le i
  have hfind : ((List.range img.numDir).find? fun i ↦
      cstr fname fileNameSize == img.entryName i) = some i := by
    rw [List.find?_range_eq_some, cstr_eq_cstring hlen (by decide)]
    refine ⟨by rw [hi.entryName, beq_self_eq_true], List.mem_range.mpr hi.lt, fun j hj ↦ ?_⟩
    rw [Bool.not_eq_true', beq_eq_false_iff_ne]
    exact (hi.first j hj).symm
  rw [readDentryByName_eq hlen, hfind, Option.bind_some, readDentryByIndex,
    if_neg (Nat.not_lt.mpr (hi.lt.le.trans h.numDir_le)), h.strncpy_fileName hi.lt]

/-- A name that no entry has is not found. -/
theorem readDentryByName_of_not_exists
    (hno : ¬ ∃ i, i < img.numDir ∧ img.entryName i = cstring fname) :
    img.readDentryByName fname = none := by
  cases hread : img.readDentryByName fname with
  | none => rfl
  | some d =>
      obtain ⟨hlen, i, hi, -, hname, -, -⟩ := exists_entry_of_readDentryByName hread
      rw [cstr_eq_cstring hlen (by decide)] at hname
      exact absurd ⟨i, hi, hname⟩ hno

theorem exists_isFirst {name : List UInt8} (hex : ∃ i, i < img.numDir ∧ img.entryName i = name) :
    ∃ i, img.IsFirst name i := by
  classical
  refine ⟨Nat.find hex, (Nat.find_spec hex).1, (Nat.find_spec hex).2, fun j hj hname ↦ ?_⟩
  exact Nat.find_min hex hj ⟨hj.trans (Nat.find_spec hex).1, hname⟩

end Named

/-- **Name lookup is exact.**  A name is found if and only if it has at most 32 bytes and is the
name of an entry; the caller's entry is then the first one of that name, and otherwise it is
left alone.  Every entry is found by its own name, and no entry matches a proper prefix or
extension of its name or the empty name. -/
theorem read_dentry_by_name_exact (img : Image) (h : img.Named) (fname : Bytes)
    (hterm : strlen fname < 2 ^ 32) (dentry : Dentry) :
    ((img.readDentryByNameInto fname dentry).1 = 0 ↔ strlen fname ≤ fileNameSize ∧
        ∃ i, i < img.numDir ∧ img.entryName i = cstring fname) ∧
      (∀ i, img.IsFirst (cstring fname) i → img.readDentryByNameInto fname dentry =
        (0, ⟨(List.range fileNameSize).map (img.fileName i), img.fileType i, img.inodeNum i⟩)) ∧
      ((¬ ∃ i, i < img.numDir ∧ img.entryName i = cstring fname) →
        img.readDentryByNameInto fname dentry = (-1, dentry)) ∧
      ∀ i, i < img.numDir →
        (img.readDentryByNameInto (Bytes.ofList (img.entryName i)) dentry).1 = 0 ∧
        (cstring fname ≠ img.entryName i ∧
            (cstring fname <+: img.entryName i ∨ img.entryName i <+: cstring fname) ∨
          cstring fname = [] → ¬ img.Matches fname i) := by
  have hfound : ∀ {fname}, strlen fname < 2 ^ 32 → ∀ i, img.IsFirst (cstring fname) i →
      img.readDentryByNameInto fname dentry =
        (0, ⟨(List.range fileNameSize).map (img.fileName i), img.fileType i, img.inodeNum i⟩) := by
    intro fname hterm i hi
    rw [readDentryByNameInto_eq, h.readDentryByName_of_isFirst hterm hi, Option.elim_some]
  have hmissing : (¬ ∃ i, i < img.numDir ∧ img.entryName i = cstring fname) →
      img.readDentryByNameInto fname dentry = (-1, dentry) := by
    intro hno
    rw [readDentryByNameInto_eq, Named.readDentryByName_of_not_exists hno, Option.elim_none]
  refine ⟨⟨fun hzero ↦ ?_, fun ⟨_, hex⟩ ↦ ?_⟩, hfound hterm, hmissing, fun i hi ↦ ⟨?_, ?_⟩⟩
  · by_cases hex : ∃ i, i < img.numDir ∧ img.entryName i = cstring fname
    · obtain ⟨i, hi, hname⟩ := hex
      refine ⟨?_, i, hi, hname⟩
      rw [← length_cstring hterm, ← hname]
      exact length_entryName_le i
    · rw [hmissing hex] at hzero
      cases hzero
  · obtain ⟨i, hi⟩ := Named.exists_isFirst hex
    rw [hfound hterm i hi]
  · have hshort : (img.entryName i).length < 2 ^ 32 :=
      Nat.lt_of_le_of_lt (length_entryName_le i) (by decide)
    obtain ⟨hlen, hself⟩ := cstring_ofList (entryName_ne_zero i) hshort
    obtain ⟨j, hj⟩ := Named.exists_isFirst ⟨i, hi, hself.symm⟩
    rw [hfound (by omega) j hj]
  · intro hdiff hmatch
    have hname := (matches_iff hterm).mp hmatch
    rcases hdiff with ⟨hne, -⟩ | hnil
    · exact hne hname.symm
    · exact h.entryName_ne_nil hi (hname.trans hnil)

end Image

/-- The directory of the small image. -/
theorem tinyImage_named : tinyImage.Named where
  numDir_le := by decide
  nonempty := by decide
  padded := by
    intro i hi j k hjk hk
    obtain rfl : i = 0 := Nat.lt_one_iff.mp hi
    have hall : ∀ k, k < fileNameSize → ∀ j, j ≤ k → tinyImage.fileName 0 j = 0 →
        tinyImage.fileName 0 k = 0 := by decide
    exact hall k hk j hjk
  ends i hi := by
    obtain rfl : i = 0 := Nat.lt_one_iff.mp hi
    exact ⟨33, by decide, by decide, by decide⟩

/-- In the small image `shell` is found, and its prefix `shel` is not. -/
theorem read_dentry_by_name_exact_shel :
    (tinyImage.readDentryByNameInto shellName ⟨[], 0, 0⟩).1 = 0 ∧
      tinyImage.readDentryByNameInto (Bytes.ofList [0x73, 0x68, 0x65, 0x6c]) ⟨[], 7, 7⟩ =
        (-1, ⟨[], 7, 7⟩) := by
  have hshell := cstring_ofList (l := [0x73, 0x68, 0x65, 0x6c, 0x6c]) (by simp)
    (show 5 < 2 ^ 32 by decide)
  have hshel := cstring_ofList (l := [0x73, 0x68, 0x65, 0x6c]) (by simp)
    (show 4 < 2 ^ 32 by decide)
  have hfound := Image.read_dentry_by_name_exact tinyImage tinyImage_named shellName
    (by rw [shellName, hshell.1]; decide) ⟨[], 0, 0⟩
  have hmissing := Image.read_dentry_by_name_exact tinyImage tinyImage_named
    (Bytes.ofList [0x73, 0x68, 0x65, 0x6c]) (by rw [hshel.1]; decide) ⟨[], 7, 7⟩
  refine ⟨hfound.1.mpr ⟨by rw [shellName, hshell.1]; decide, 0, by decide, ?_⟩,
    hmissing.2.2.1 ?_⟩
  · rw [shellName, hshell.2]
    decide
  · rw [hshel.2]
    decide

end Illinix
