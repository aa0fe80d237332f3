import RedstoneOS.Library.Runs
import RedstoneOS.Malloc

namespace RedstoneOS.HeapTable

open Malloc Library.Extents Library.Runs

/-- The table, and the pointers that `malloc` has returned and that are not yet freed. One pointer
can be there twice: a request of 255KB is recorded with length 0. -/
structure Heap where
  table : Table
  live : List Nat

/-- `other` stores to the memory behind the table, which the look-ahead of `malloc` reads. -/
inductive Event
  | malloc (size : Nat)
  | free (ptr : Nat)
  | other (memory : Table)

/-- A call of `malloc` that does not return leaves no state behind it. -/
def step (h : Heap) : Event → Heap
  | .malloc size =>
    match malloc size h.table with
    | .pointer p table => ⟨table, p :: h.live⟩
    | .null => h
    | .hang => h
  | .free ptr => ⟨free ptr h.table, h.live.erase ptr⟩
  | .other memory => { h with table := fun i => if i < kb4 then h.table i else memory i }

def boot (table : Table) : Heap := ⟨initDynamicMemory table, []⟩

def FreesLive (h : Heap) : Event → Prop
  | .malloc _ => True
  | .free ptr => ptr ∈ h.live
  | .other _ => True

def Reaches (table : Table) (i a : Nat) : Prop := i ≤ a ∧ a < i + (table i).toNat

/-- The zero cells that the `while` loop of `malloc` comes to. -/
def zeroCells (table : Table) (kbSize : UInt8) : Nat → Nat → List Nat
  | 0, _ => []
  | fuel + 1, newIndex =>
    if newIndex < kb4 then
      if table newIndex ≠ 0 then zeroCells table kbSize fuel (newIndex + (table newIndex).toNat)
      else if checkSpace table newIndex kbSize.toNat then [newIndex]
      else newIndex :: zeroCells table kbSize fuel newIndex
    else []

structure TableInvariant (table : Table) : Prop where
  disjoint : ∀ i j, i < kb4 → j < kb4 → i ≠ j → table i ≠ 0 → table j ≠ 0 →
    ∀ a, Reaches table i a → ¬ Reaches table j a
  vacant : ∀ size fuel i, i ∈ zeroCells table (kbSize size) fuel 0 →
    ∀ j, j < kb4 → ¬ Reaches table j i
  restored : ∀ size p table', malloc size table = .pointer p table' → free p table' = table
  null : ∀ size, malloc size table = .null → ∀ i, i < kb4 → free 0 table i = table i

variable {table : Table} {kb : UInt8} {fuel i j : Nat} {h : Heap} {e : Event}

theorem reaches_disjoint (hsep : Separated kb4 (extents table)) (hi : i < kb4) (hj : j < kb4)
    (hij : i ≠ j) (hti : table i ≠ 0) (htj : table j ≠ 0) {a : Nat} (ha : Reaches table i a) :
    ¬ Reaches table j a := by
  intro ha'
  simp only [Reaches] at ha ha'
  obtain hlt | hgt := Nat.lt_or_gt_of_ne hij
  · have hend : i + (table i).toNat ≤ j :=
      hsep i j hlt hj (extents_ne_zero.mpr hti) (extents_ne_zero.mpr htj)
    omega
  · have hend : j + (table j).toNat ≤ i :=
      hsep j i hgt hi (extents_ne_zero.mpr htj) (extents_ne_zero.mpr hti)
    omega

theorem not_reaches_boundary (hb : Boundary kb4 (extents table) i) (hzero : table i = 0)
    (hj : j < kb4) : ¬ Reaches table j i := by
  intro hreach
  simp only [Reaches] at hreach
  have hlen : table j ≠ 0 := by
    intro htj
    rw [htj] at hreach
    simp at hreach
    omega
  have hne : j ≠ i := by
    rintro rfl
    exact hlen hzero
  have hend : j + (table j).toNat ≤ i := hb j (by omega) hj (extents_ne_zero.mpr hlen)
  omega

theorem boundary_of_zeroCells (hsep : Separated kb4 (extents table))
    (hb : Boundary kb4 (extents table) i) {a : Nat} (ha : a ∈ zeroCells table kb fuel i) :
    Boundary kb4 (extents table) a ∧ table a = 0 := by
  induction fuel generalizing i with
  | zero => simp [zeroCells] at ha
  | succ fuel ih =>
    rw [zeroCells] at ha
    by_cases hi : i < kb4
    · rw [if_pos hi] at ha
      by_cases hzero : table i = 0
      · rw [if_neg (not_not.mpr hzero)] at ha
        split at ha
        · rw [List.mem_singleton.mp ha]
          exact ⟨hb, hzero⟩
        · obtain rfl | ha := List.mem_cons.mp ha
          · exact ⟨hb, hzero⟩
          · exact ih hb ha
      · rw [if_pos hzero] at ha
        exact ih (hb.jump hsep (extents_ne_zero.mpr hzero)) ha
    · rw [if_neg hi] at ha
      simp at ha

theorem free_malloc {size p : Nat} {table' : Table} (hm : malloc size table = .pointer p table') :
    free p table' = table := by
  obtain ⟨j, hj, hloop, rfl, rfl⟩ := malloc_found hm
  have hcell : table j = 0 := mallocLoop_zero hloop hj
  rw [free, cellIndex_ptr hj, Function.update_idem, ← hcell, Function.update_eq_self]

theorem free_null (hi : i < kb4) : free 0 table i = table i := by
  have hfar : i ≠ cellIndex 0 := by
    simp only [cellIndex, dynamicAddrStart, kb1, kb4] at hi ⊢
    omega
  rw [free, Function.update_of_ne hfar]

/-- Disjoint extents are all that the invariant needs. -/
theorem tableInvariant_of_separated (hsep : Separated kb4 (extents table)) :
    TableInvariant table := by
  refine ⟨?_, ?_, ?_, ?_⟩
  · intro i j hi hj hij hti htj a ha
    exact reaches_disjoint hsep hi hj hij hti htj ha
  · intro size fuel i hi j hj
    obtain ⟨hb, hzero⟩ := boundary_of_zeroCells hsep boundary_zero hi
    exact not_reaches_boundary hb hzero hj
  · intro size p table' hm
    exact free_malloc hm
  · intro size _ i hi
    exact free_null hi

theorem separated_step (h : Heap) (e : Event) (hsep : Separated kb4 (extents h.table)) :
    Separated kb4 (extents (step h e).table) := by
  cases e with
  | malloc size =>
    rw [step]
    cases hm : malloc size h.table with
    | pointer p table =>
      obtain ⟨j, hj, -, rfl, hfound⟩ := malloc_pointer hm
      obtain ⟨hb, hroom⟩ := hfound hsep
      dsimp only
      rw [extents_update]
      exact hsep.place hb hroom
    | null => exact hsep
    | hang => exact hsep
  | free ptr =>
    rw [step, free, extents_update]
    exact hsep.clear _
  | other memory =>
    refine hsep.congr fun i hi => ?_
    simp only [step, extents, Function.comp_apply, if_pos hi]

theorem separated_boot (table : Table) : Separated kb4 (extents (boot table).table) := by
  refine separated_of_zero fun i hi => ?_
  rw [extents_eq_zero]
  exact if_pos hi

/-- Whatever is allocated and freed, the extents of the table stay apart, the search comes to no
cell of an allocated block, and an allocation that is freed at once leaves no trace. -/
theorem table_invariant (table : Table) {es : List Event}
    (hes : Along step FreesLive (boot table) es) :
    TableInvariant (run step (boot table) es).table := by
  refine tableInvariant_of_separated ?_
  exact run_invariant (J := fun h => Separated kb4 (extents h.table))
    (fun h e hsep _ => separated_step h e hsep) (separated_boot table) hes

def reusedCells : List Event := [.malloc 2048, .malloc 1, .free dynamicAddrStart, .malloc 1]

theorem table_invariant_reused :
    Along step FreesLive (boot fun _ => 7) reusedCells ∧
      TableInvariant (run step (boot fun _ => 7) reusedCells).table := by
  have hes : Along step FreesLive (boot fun _ => 7) reusedCells := by
    refine ⟨trivial, trivial, ?_, trivial, trivial⟩
    change dynamicAddrStart ∈ (run step (boot fun _ => 7) [.malloc 2048, .malloc 1]).live
    decide +kernel
  exact ⟨hes, table_invariant (fun _ => 7) hes⟩

end RedstoneOS.HeapTable
