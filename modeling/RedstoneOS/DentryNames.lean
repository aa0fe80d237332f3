import RedstoneOS.ExecuteChecks
import Mathlib.Data.List.GetD
import Mathlib.Data.Nat.Find

namespace RedstoneOS.DentryNames

open Lib Library.ByteMemory Filesystem Execute ExecuteChecks

structure Spells (fname : Nat → UInt8) (s : List UInt8) : Prop where
  bytes : ∀ j, j ≤ s.length → fname j = byteAt s j
  whole : 0 ∉ s

def fileName (m : Mem) (fs : FsInfo) (i : Nat) : List UInt8 :=
  readBytes m (dirEntryAddr fs i) maxFilenameLen

/-- The name of a field goes up to the first NUL, or through the field. -/
def nameOf (field : List UInt8) : List UInt8 := field.takeWhile fun c => decide (c ≠ 0)

def entryName (m : Mem) (fs : FsInfo) (i : Nat) : List UInt8 := nameOf (fileName m fs i)

def dentryAt (m : Mem) (fs : FsInfo) (i : Nat) : Dentry := ⟨entryFileType m fs i, entryInodeNum m fs i⟩

def First (P : Nat → Prop) (n i : Nat) : Prop := i < n ∧ P i ∧ ∀ j, j < i → ¬ P j

/-- The call finds the first entry of that name, and fails if there is none. -/
structure Resolves (m : Mem) (fs : FsInfo) (fname : Nat → UInt8) (s : List UInt8) : Prop where
  found : ∀ i, First (fun i => entryName m fs i = s) fs.fileSize i →
    readDentryByName m fs fname = some (dentryAt m fs i)
  missing : (∀ i, i < fs.fileSize → entryName m fs i ≠ s) → readDentryByName m fs fname = none

def Agrees (m : Mem) (fs : FsInfo) (s : List UInt8) (i : Nat) : Prop :=
  (entryName m fs i).take 31 = s.take 31

variable {m : Mem} {fs : FsInfo} {fname f g : Nat → UInt8} {s field : List UInt8}
  {a b : UInt8} {i n r : Nat}

theorem narrowed_eq_zero : (a.toInt8.toInt - b.toInt8.toInt) % 256 = 0 ↔ a = b := by
  have ha := a.toInt8.le_toInt
  have ha' := a.toInt8.toInt_lt
  have hb := b.toInt8.le_toInt
  have hb' := b.toInt8.toInt_lt
  constructor
  · intro h
    have heq : a.toInt8.toInt = b.toInt8.toInt := by omega
    exact congrArg Int8.toUInt8 (Int8.toInt_inj.mp heq)
  · rintro rfl
    rw [Int.sub_self]
    rfl

theorem strncmpFrom_cons (s field : List UInt8) :
    strncmpFrom (byteAt (a :: s)) (byteAt (b :: field)) r (i + 1) =
      strncmpFrom (byteAt s) (byteAt field) r i := by
  induction r generalizing i with
  | zero => rfl
  | succ r ih =>
    rw [strncmpFrom, strncmpFrom, ih]
    rfl

theorem strncmp_eq_zero (hs : 0 ∉ s) (hn : n ≤ field.length) :
    strncmp (byteAt s) (byteAt field) n % 256 = 0 ↔ (nameOf field).take n = s.take n := by
  rw [strncmp]
  induction n generalizing s field with
  | zero => simp [strncmpFrom]
  | succ n ih =>
    cases field with
    | nil => simp at hn
    | cons b field =>
      rw [strncmpFrom]
      cases s with
      | nil =>
        have hzero : byteAt [] 0 = 0 := rfl
        have hb : byteAt (b :: field) 0 = b := rfl
        rw [if_pos (Or.inr hzero), hzero, hb, narrowed_eq_zero]
        by_cases h0 : b = 0
        · simp [h0, nameOf]
        · simp [h0, nameOf, Ne.symm h0]
      | cons a s =>
        have ha : byteAt (a :: s) 0 = a := rfl
        have hb : byteAt (b :: field) 0 = b := rfl
        have ha0 : a ≠ 0 := fun h => hs (by simp [h])
        rw [ha, hb]
        by_cases hab : a = b
        · subst hab
          rw [if_neg (by simp [ha0]), strncmpFrom_cons, ih (fun h => hs (List.mem_cons_of_mem a h))
            (Nat.le_of_succ_le_succ hn)]
          simp [nameOf, ha0]
        · rw [if_pos (Or.inl hab), narrowed_eq_zero]
          refine iff_of_false hab fun h => ?_
          by_cases h0 : b = 0
          · simp [nameOf, h0] at h
          · simp [nameOf, h0, Ne.symm hab] at h

/-- The comparison reads the first string no further than its NUL, and the field within the bytes
that are compared. -/
theorem strncmpFrom_congr (hs : Spells fname s) (hi : i ≤ s.length)
    (hfield : ∀ j, i ≤ j → j < i + r → f j = g j) :
    strncmpFrom fname f r i = strncmpFrom (byteAt s) g r i := by
  induction r generalizing i with
  | zero => rfl
  | succ r ih =>
    rw [strncmpFrom, strncmpFrom, hs.bytes i hi, hfield i le_rfl (by omega)]
    split
    · rfl
    next hsame =>
      have hlt : i < s.length := by
        by_contra hge
        exact hsame (Or.inr (List.getD_eq_default _ _ (by omega)))
      exact ih hlt fun j hj hj' => hfield j (by omega) (by omega)

theorem checkFlag_eq_zero (hs : Spells fname s) : checkFlag m fs fname i = 0 ↔ Agrees m fs s i := by
  have hlen : (fileName m fs i).length = maxFilenameLen := readBytes_length ..
  have hbytes : ∀ j, 0 ≤ j → j < 0 + 31 →
      m (dirEntryAddr fs i + j) = byteAt (fileName m fs i) j := by
    intro j _ hj
    have hj' : j < (fileName m fs i).length := by
      rw [hlen, maxFilenameLen]
      omega
    rw [byteAt, List.getD_eq_getElem _ _ hj']
    simp [fileName, readBytes]
  have hcmp := strncmpFrom_congr hs (Nat.zero_le _) hbytes
  have hiff : strncmp (byteAt s) (byteAt (fileName m fs i)) 31 % 256 = 0 ↔
      (nameOf (fileName m fs i)).take 31 = s.take 31 := by
    refine strncmp_eq_zero hs.whole ?_
    rw [hlen]
    decide
  have hnonneg := Int.emod_nonneg (strncmp (byteAt s) (byteAt (fileName m fs i)) 31)
    (show (256 : Int) ≠ 0 by decide)
  rw [Agrees, entryName, ← hiff, checkFlag, strncmp, show maxFilenameLen - 1 = 31 from rfl, hcmp,
    ← strncmp]
  omega

theorem readDentryFrom_eq (m : Mem) (fs : FsInfo) (fname : Nat → UInt8) (n i : Nat) :
    readDentryFrom m fs fname n i =
      ((List.range' i n).find? fun j => decide (checkFlag m fs fname j = 0)).map (dentryAt m fs) := by
  induction n generalizing i with
  | zero => rfl
  | succ n ih =>
    rw [readDentryFrom, List.range'_succ, List.find?_cons]
    by_cases h : checkFlag m fs fname i = 0
    · simp [h, dentryAt]
    · rw [if_neg h, ih, decide_eq_false h]

/-- What the search finds: the first entry that agrees in the bytes that are compared. -/
theorem readDentry_first (m : Mem) (fs : FsInfo) (hs : Spells fname s) :
    (∀ i, First (Agrees m fs s) fs.fileSize i →
      readDentryByName m fs fname = some (dentryAt m fs i)) ∧
    ((∀ i, i < fs.fileSize → ¬ Agrees m fs s i) → readDentryByName m fs fname = none) := by
  rw [readDentryByName, readDentryFrom_eq]
  refine ⟨fun i hi => ?_, fun hnone => ?_⟩
  · rw [List.find?_range'_eq_some.mpr, Option.map_some]
    refine ⟨?_, ?_, fun j _ hj => ?_⟩
    · exact decide_eq_true ((checkFlag_eq_zero hs).mpr hi.2.1)
    · exact List.mem_range'_1.mpr ⟨Nat.zero_le i, by rw [Nat.zero_add]; exact hi.1⟩
    · simp [checkFlag_eq_zero hs, hi.2.2 j hj]
  · rw [List.find?_range'_eq_none.mpr, Option.map_none]
    intro j _ hj
    simp [checkFlag_eq_zero hs, hnone j (by omega)]

theorem First.of_exists {P : Nat → Prop} (h : ∃ i, i < n ∧ P i) : ∃ i, First P n i := by
  classical
  obtain ⟨i, hi, hP⟩ := h
  refine ⟨Nat.find ⟨i, hP⟩, Nat.lt_of_le_of_lt (Nat.find_min' _ hP) hi, Nat.find_spec ⟨i, hP⟩, ?_⟩
  exact fun j hj => Nat.find_min ⟨i, hP⟩ hj

/-- A lookup goes by the name exactly if the first entry that agrees with it in the bytes that are
compared, if there is one, gives what the first entry of that name gives. -/
theorem resolves_iff (hs : Spells fname s) : Resolves m fs fname s ↔
    ∀ i, First (Agrees m fs s) fs.fileSize i →
      ∃ j, First (fun j => entryName m fs j = s) fs.fileSize j ∧
        dentryAt m fs j = dentryAt m fs i := by
  obtain ⟨hfirst, hnone⟩ := readDentry_first m fs hs
  have hagrees : ∀ j, entryName m fs j = s → Agrees m fs s j :=
    fun j hj => congrArg (List.take 31) hj
  constructor
  · intro h i hi
    have hcall := hfirst i hi
    by_cases hnamed : ∃ j, j < fs.fileSize ∧ entryName m fs j = s
    · obtain ⟨j, hj⟩ := First.of_exists hnamed
      exact ⟨j, hj, Option.some.inj ((h.found j hj).symm.trans hcall)⟩
    · have hmissing := h.missing fun j hj hname => hnamed ⟨j, hj, hname⟩
      rw [hmissing] at hcall
      cases hcall
  · intro h
    refine ⟨fun i hi => ?_, fun hmissing => ?_⟩
    · obtain ⟨k, hk⟩ := First.of_exists ⟨i, hi.1, hagrees i hi.2.1⟩
      obtain ⟨j, hj, heq⟩ := h k hk
      have hji : j = i := by
        obtain hlt | he | hgt := Nat.lt_trichotomy j i
        · exact absurd hj.2.1 (hi.2.2 j hlt)
        · exact he
        · exact absurd hi.2.1 (hj.2.2 i hgt)
      rw [hfirst k hk, ← heq, hji]
    · refine hnone fun i hi hagree => ?_
      obtain ⟨k, hk⟩ := First.of_exists ⟨i, hi, hagree⟩
      obtain ⟨j, hj, -⟩ := h k hk
      exact hmissing j hj.1 hj.2.1

theorem resolves_tiny : Resolves tinySystem.mem tinySystem.fs (byteAt tinySystem.shell) tinySystem.shell := by
  refine (resolves_iff ⟨fun _ _ => rfl, by decide⟩).mpr fun i hi => ?_
  have hi1 : i = 1 := by
    have hlt : i < 2 := hi.1
    have h0 : ¬ Agrees tinySystem.mem tinySystem.fs tinySystem.shell 0 := by
      unfold Agrees
      decide
    obtain rfl | rfl : i = 0 ∨ i = 1 := by omega
    · exact absurd hi.2.1 h0
    · rfl
  subst hi1
  refine ⟨1, ⟨by decide, by decide, fun j hj => ?_⟩, rfl⟩
  obtain rfl : j = 0 := by omega
  decide

def longName : List UInt8 :=
  [118, 101, 114, 121, 108, 97, 114, 103, 101, 116, 120, 116, 119, 105, 116, 104,
    118, 101, 114, 121, 108, 111, 110, 103, 110, 97, 109, 101, 46, 116, 120, 116]

def longNames : System :=
  ⟨fun a => if a = 0x400000 then 1 else if a = 0x400060 then 2
    else if 0x400040 ≤ a then byteAt longName (a - 0x400040) else 0, 0x400000, [], 0x7ff000⟩

/-- A name that lacks the last byte of that entry is found. -/
theorem last_byte_not_compared :
    Spells (byteAt (longName.take 31)) (longName.take 31) ∧
      ¬ Resolves longNames.mem longNames.fs (byteAt (longName.take 31)) (longName.take 31) := by
  refine ⟨⟨fun _ _ => rfl, by decide⟩, fun h => ?_⟩
  have hfound : readDentryByName longNames.mem longNames.fs (byteAt (longName.take 31)) ≠ none := by
    decide +kernel
  refine hfound (h.missing fun i hi => ?_)
  have hi : i < 1 := hi
  obtain rfl : i = 0 := by omega
  decide +kernel

end RedstoneOS.DentryNames
