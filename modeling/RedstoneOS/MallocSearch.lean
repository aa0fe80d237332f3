import RedstoneOS.HeapBlocks

namespace RedstoneOS.MallocSearch

open Malloc HeapBlocks Library.Extents Library.Runs

def checkReads (newIndex n : Nat) : List Nat := (List.range n).map (newIndex + ·)

/-- The entries that the `while` loop of `malloc` reads. An entry that is not 0 is read twice. -/
def mallocReads (table : Table) (kbSize : UInt8) : Nat → Nat → List Nat
  | 0, _ => []
  | fuel + 1, newIndex =>
    if newIndex < kb4 then
      if table newIndex ≠ 0 then
        newIndex :: newIndex :: mallocReads table kbSize fuel (newIndex + (table newIndex).toNat)
      else if checkSpace table newIndex kbSize.toNat then
        newIndex :: checkReads newIndex kbSize.toNat
      else
        newIndex :: (checkReads newIndex kbSize.toNat ++ mallocReads table kbSize fuel newIndex)
    else []

def Terminates (size : Nat) (table : Table) : Prop :=
  ∃ fuel j, mallocLoop table (kbSize size) fuel 0 = some j

def cells (size : Nat) : Nat := size / kb1 + 1

def FreeCell (h : Heap) (i : Nat) : Prop :=
  ∀ b, b ∈ h.live → ¬ (blockCell b ≤ i ∧ i < blockCell b + cells b.size)

def Room (h : Heap) (size : Nat) : Prop :=
  ∃ i, i + cells size ≤ kb4 ∧ ∀ j, j < cells size → FreeCell h (i + j)

def Fits (size : Nat) (table : Table) (f : Nat) : Prop := ∀ j, j < cells size → table (f + j) = 0

def heapEnd : Nat := 0x0C00000

/-- The call reads entries of the table only, and its block lies in the heap's page. -/
structure Inside (size : Nat) (table : Table) : Prop where
  reads : ∀ x, x ∈ mallocReads table (kbSize size) (kb4 + 1) 0 → x < kb4
  block : ∀ p table', malloc size table = .pointer p table' →
    dynamicAddrStart ≤ p ∧ p + kb1 * cells size ≤ heapEnd

/-- A nonzero entry belongs to a live block that is no shorter than what it records. -/
structure Recorded (h : Heap) : Prop where
  separated : Separated kb4 (extents h.table)
  live : ∀ i, i < kb4 → h.table i ≠ 0 →
    ∃ b, b ∈ h.live ∧ blockCell b = i ∧ extents h.table i ≤ cells b.size

variable {table table' : Table} {kb : UInt8} {f i j p size : Nat} {h : Heap}

theorem eq_zero_of_vacant (h : Vacant (extents table) f) : table f = 0 :=
  extents_eq_zero.mp h.eq_zero

/-- The search over a table of disjoint extents: jumps, up to the first vacant cell or past
the end. -/
theorem scan_induction (hsep : Separated kb4 (extents table)) {P : Nat → Nat → Prop}
    (hpast : ∀ fuel i, kb4 ≤ i → (∀ k, k < kb4 → ¬ Vacant (extents table) k) → P (fuel + 1) i)
    (hstop : ∀ fuel i, FirstVacant kb4 (extents table) i → P (fuel + 1) i)
    (hjump : ∀ fuel i, i < kb4 → table i ≠ 0 → P fuel (i + extents table i) → P (fuel + 1) i) :
    P (kb4 + 1) 0 := by
  suffices hscan : ∀ fuel i, Boundary kb4 (extents table) i →
      (∀ k, k < i → k < kb4 → ¬ Vacant (extents table) k) → kb4 < min i kb4 + fuel → P fuel i from
    hscan (kb4 + 1) 0 boundary_zero (fun k hk => absurd hk (Nat.not_lt_zero k)) (by omega)
  intro fuel
  induction fuel with
  | zero =>
    intro i _ _ hfuel
    omega
  | succ fuel ih =>
    intro i hb hbelow hfuel
    by_cases hi : i < kb4
    · by_cases hzero : table i = 0
      · have hvacant := hb.vacant hi (extents_eq_zero.mpr hzero)
        exact hstop fuel i ⟨hi, hvacant, fun k hk => hbelow k hk (by omega)⟩
      · have hlen := extents_ne_zero.mpr hzero
        refine hjump fuel i hi hzero (ih _ (hb.jump hsep hlen) (fun k hk hk4 => ?_) (by omega))
        obtain hlt | hge := Nat.lt_or_ge k i
        · exact hbelow k hlt hk4
        · exact not_vacant_of_reached hge hk
    · exact hpast fuel i (by omega) (fun k hk => hbelow k (by omega) hk)

/-- What the search finds. At a first vacant cell without room it never ends. -/
theorem mallocLoop_scan (hsep : Separated kb4 (extents table)) (kb : UInt8) :
    (∃ j, kb4 ≤ j ∧ mallocLoop table kb (kb4 + 1) 0 = some j ∧
      ∀ k, k < kb4 → ¬ Vacant (extents table) k) ∨
    ∃ f, FirstVacant kb4 (extents table) f ∧ mallocLoop table kb (kb4 + 1) 0 =
      if checkSpace table f kb.toNat then some f else none := by
  refine scan_induction hsep
    (P := fun fuel i => (∃ j, kb4 ≤ j ∧ mallocLoop table kb fuel i = some j ∧
        ∀ k, k < kb4 → ¬ Vacant (extents table) k) ∨
      ∃ f, FirstVacant kb4 (extents table) f ∧ mallocLoop table kb fuel i =
        if checkSpace table f kb.toNat then some f else none) ?_ ?_ ?_
  · intro fuel i hi hfull
    exact Or.inl ⟨i, hi, mallocLoop_past hi, hfull⟩
  · intro fuel i hf
    have hzero := eq_zero_of_vacant hf.2.1
    refine Or.inr ⟨i, hf, ?_⟩
    split
    next hs => exact mallocLoop_stop hf.1 hzero hs
    next hs => exact mallocLoop_stuck hf.1 hzero hs
  · intro fuel i hi hne ih
    rwa [mallocLoop_jump hi hne]

theorem malloc_full (hsep : Separated kb4 (extents table))
    (hfull : ∀ k, k < kb4 → ¬ Vacant (extents table) k) (size : Nat) :
    malloc size table = .null := by
  obtain ⟨j, hj, hloop, -⟩ | ⟨f, hf, -⟩ := mallocLoop_scan hsep (kbSize size)
  · simp only [malloc, hloop, if_pos hj]
  · exact absurd hf.2.1 (hfull f hf.1)

theorem malloc_vacant (hsep : Separated kb4 (extents table))
    (hf : FirstVacant kb4 (extents table) f) (size : Nat) :
    malloc size table = if checkSpace table f (kbSize size).toNat then
      .pointer (dynamicAddrStart + f * kb1) (Function.update table f (kbSize size)) else .hang := by
  obtain ⟨j, -, -, hfull⟩ | ⟨f', hf', hloop⟩ := mallocLoop_scan hsep (kbSize size)
  · exact absurd hf.2.1 (hfull f hf.1)
  · obtain rfl := hf.unique hf'
    have hlt : ¬ kb4 ≤ f := Nat.not_le.mpr hf.1
    split
    next hs => rw [if_pos hs] at hloop; simp only [malloc, hloop, if_neg hlt]
    next hs => rw [if_neg hs] at hloop; simp only [malloc, hloop]

theorem full_or_firstVacant (hsep : Separated kb4 (extents table)) :
    (∀ k, k < kb4 → ¬ Vacant (extents table) k) ∨ ∃ f, FirstVacant kb4 (extents table) f := by
  obtain ⟨-, -, -, hfull⟩ | ⟨f, hf, -⟩ := mallocLoop_scan hsep 0
  · exact Or.inl hfull
  · exact Or.inr ⟨f, hf⟩

theorem terminates_iff : Terminates size table ↔ malloc size table ≠ .hang := by
  constructor
  · rintro ⟨fuel, j, hj⟩
    rw [malloc, mallocLoop_within hj]
    dsimp only
    split <;> simp
  · intro h
    cases hloop : mallocLoop table (kbSize size) (kb4 + 1) 0 with
    | none => simp [malloc, hloop] at h
    | some j => exact ⟨kb4 + 1, j, hloop⟩

theorem checkSpace_fits (hs : size < 255 * kb1) :
    checkSpace table f (kbSize size).toNat = true ↔ Fits size table f := by
  rw [checkSpace_iff, toNat_kbSize hs]
  exact forall₂_congr fun j _ => extents_eq_zero

theorem terminates_iff_fits (hsep : Separated kb4 (extents table)) (hs : size < 255 * kb1) :
    Terminates size table ↔ ∀ f, FirstVacant kb4 (extents table) f → Fits size table f := by
  rw [terminates_iff]
  constructor
  · intro hret f hf
    rw [malloc_vacant hsep hf] at hret
    by_contra hfits
    rw [if_neg (fun hc => hfits ((checkSpace_fits hs).mp hc))] at hret
    exact hret rfl
  · intro hfits
    obtain hfull | ⟨f, hf⟩ := full_or_firstVacant hsep
    · rw [malloc_full hsep hfull]
      simp
    · rw [malloc_vacant hsep hf, if_pos ((checkSpace_fits hs).mpr (hfits f hf))]
      simp

theorem recorded_boot (table : Table) : Recorded (boot table) where
  separated := (kept_boot table).separated
  live _ hi hne := absurd (extents_boot table hi) (extents_ne_zero.mpr hne)

theorem kbSize_le (size : Nat) : (kbSize size).toNat ≤ cells size := by
  rw [kbSize, UInt8.toNat_ofNat']
  exact Nat.mod_le _ _

theorem Recorded.malloc (hr : Recorded h) (hm : malloc size h.table = .pointer p table') :
    Recorded ⟨table', ⟨p, size⟩ :: h.live⟩ := by
  obtain ⟨j, hj, rfl, rfl, hfound⟩ := malloc_pointer hm
  obtain ⟨hb, hroom⟩ := hfound hr.separated
  refine ⟨?_, fun i hi hne => ?_⟩
  · rw [extents_update]
    exact hr.separated.place hb hroom
  · rw [extents_update]
    by_cases hij : i = j
    · subst hij
      refine ⟨⟨_, size⟩, List.mem_cons_self, cellIndex_ptr hi, ?_⟩
      rw [Function.update_self]
      exact kbSize_le size
    · change Function.update h.table j (kbSize size) i ≠ 0 at hne
      rw [Function.update_of_ne hij] at hne ⊢
      obtain ⟨b, hb, hcell, hle⟩ := hr.live i hi hne
      exact ⟨b, List.mem_cons_of_mem _ hb, hcell, hle⟩

theorem Recorded.free (hr : Recorded h) (p : Nat) :
    Recorded ⟨free p h.table, h.live.filter (fun b => b.ptr ≠ p)⟩ := by
  refine ⟨?_, fun i hi hne => ?_⟩
  · rw [Malloc.free, extents_update]
    exact hr.separated.clear _
  · have hic : i ≠ cellIndex p := by
      rintro rfl
      exact hne (Function.update_self ..)
    change Function.update h.table (cellIndex p) 0 i ≠ 0 at hne
    rw [Function.update_of_ne hic] at hne
    rw [Malloc.free, extents_update, Function.update_of_ne hic]
    obtain ⟨b, hb, rfl, hle⟩ := hr.live i hi hne
    have hptr : b.ptr ≠ p := fun hp => hic (congrArg cellIndex hp)
    exact ⟨b, List.mem_filter.mpr ⟨hb, decide_eq_true hptr⟩, rfl, hle⟩

theorem Recorded.other (hr : Recorded h) (memory : Table) :
    Recorded { h with table := fun i => if i < kb4 then h.table i else memory i } := by
  refine ⟨hr.separated.congr fun i => extents_other h.table memory, fun i hi hne => ?_⟩
  rw [extents_other _ _ hi]
  exact hr.live i hi (by simpa only [if_pos hi] using hne)

theorem recorded_step (h : Heap) (e : Event) (hr : Recorded h) : Recorded (step h e) := by
  cases e with
  | malloc size =>
    rw [step]
    cases hm : malloc size h.table with
    | pointer p table => exact hr.malloc hm
    | null => exact hr
    | hang => exact hr
  | free p => exact hr.free p
  | other memory => exact hr.other memory

theorem recorded_run (table : Table) (es : List Event) : Recorded (run step (boot table) es) :=
  run_always recorded_step (recorded_boot table) es

theorem Recorded.no_room (hr : Recorded h)
    (hfull : ∀ k, k < kb4 → ¬ Vacant (extents h.table) k) : ¬ Room h size := by
  rintro ⟨i, hi, hfree⟩
  have hpos : 0 < cells size := Nat.succ_pos _
  have hi4 : i < kb4 := by omega
  have hcover := hfull i hi4
  simp only [Vacant, not_forall] at hcover
  obtain ⟨j, hj, hreach⟩ := hcover
  have hne : h.table j ≠ 0 := extents_ne_zero.mp (by omega)
  obtain ⟨b, hb, rfl, hle⟩ := hr.live j (by omega) hne
  exact hfree 0 hpos b hb ⟨by omega, by omega⟩

/-- `malloc` returns, with `NULL` only when there is no room, exactly when the first vacant
cell has the room that is asked for. -/
theorem malloc_returns_iff (table : Table) (es : List Event) (hs : size < 255 * kb1) :
    Terminates size (run step (boot table) es).table ∧
        (malloc size (run step (boot table) es).table = .null →
          ¬ Room (run step (boot table) es) size) ↔
      ∀ f, FirstVacant kb4 (extents (run step (boot table) es).table) f →
        Fits size (run step (boot table) es).table f := by
  have hr := recorded_run table es
  rw [← terminates_iff_fits hr.separated hs]
  refine ⟨fun hret => hret.1, fun hret => ⟨hret, fun hnull => ?_⟩⟩
  obtain hfull | ⟨f, hf⟩ := full_or_firstVacant hr.separated
  · exact hr.no_room hfull
  · rw [malloc_vacant hr.separated hf] at hnull
    split at hnull <;> simp at hnull

theorem malloc_returns_small :
    Terminates 1000 (run step (boot fun _ => 0) [.malloc 5000]).table ∧
      (malloc 1000 (run step (boot fun _ => 0) [.malloc 5000]).table = .null →
        ¬ Room (run step (boot fun _ => 0) [.malloc 5000]) 1000) := by
  refine (malloc_returns_iff (fun _ => 0) [.malloc 5000] (by decide)).mpr fun f hf j hj => ?_
  have hone : cells 1000 = 1 := rfl
  obtain rfl : j = 0 := by omega
  exact eq_zero_of_vacant hf.2.1

def holed : List Event := [.malloc 1, .malloc 1, .free 0x800000]

/-- A hole of 1KB stops every search for more, with 4MB but for 2KB free. -/
theorem malloc_hangs_in_hole :
    Along step Owned (boot fun _ => 0) holed ∧
      ¬ Terminates 1024 (run step (boot fun _ => 0) holed).table ∧
      Room (run step (boot fun _ => 0) holed) 1024 := by
  refine ⟨⟨trivial, trivial, ⟨⟨0x800000, 1⟩, by decide +kernel, rfl⟩, trivial⟩, ?_, 2, by decide, ?_⟩
  · rintro ⟨fuel, j, hj⟩
    rw [mallocLoop_stuck (by decide) (by decide +kernel) (by decide +kernel)] at hj
    cases hj
  · have hlive : (run step (boot fun _ => 0) holed).live = [⟨0x800400, 1⟩] := by decide +kernel
    intro j hj b hb
    rw [hlive, List.mem_singleton] at hb
    subst hb
    rintro ⟨-, hlt⟩
    simp [blockCell, cellIndex, cells, dynamicAddrStart, kb1] at hlt
    omega

/-- What a search that returns has read: entries of the table, and those of the request from
the first vacant cell on. -/
theorem mallocReads_scan (hsep : Separated kb4 (extents table))
    (hroom : ∀ f, FirstVacant kb4 (extents table) f → checkSpace table f kb.toNat = true) :
    (∀ x, x ∈ mallocReads table kb (kb4 + 1) 0 →
      x < kb4 ∨ ∃ f, FirstVacant kb4 (extents table) f ∧ x < f + kb.toNat) ∧
    ∀ f, FirstVacant kb4 (extents table) f → ∀ j, j < kb.toNat →
      f + j ∈ mallocReads table kb (kb4 + 1) 0 := by
  refine scan_induction hsep
    (P := fun fuel i => (∀ x, x ∈ mallocReads table kb fuel i →
        x < kb4 ∨ ∃ f, FirstVacant kb4 (extents table) f ∧ x < f + kb.toNat) ∧
      ∀ f, FirstVacant kb4 (extents table) f → ∀ j, j < kb.toNat →
        f + j ∈ mallocReads table kb fuel i) ?_ ?_ ?_
  · intro fuel i hi hfull
    refine ⟨fun x hx => ?_, fun f hf => absurd hf.2.1 (hfull f hf.1)⟩
    rw [mallocReads, if_neg (by omega)] at hx
    cases hx
  · intro fuel i hi
    have hzero := eq_zero_of_vacant hi.2.1
    have hreads : mallocReads table kb (fuel + 1) i = i :: checkReads i kb.toNat := by
      rw [mallocReads, if_pos hi.1, if_neg (not_not.mpr hzero), if_pos (hroom i hi)]
    rw [hreads]
    refine ⟨fun x hx => ?_, fun f hf j hj => ?_⟩
    · obtain rfl | hx := List.mem_cons.mp hx
      · exact Or.inl hi.1
      · obtain ⟨j, hj, rfl⟩ := List.mem_map.mp hx
        have hlt := List.mem_range.mp hj
        exact Or.inr ⟨i, hi, by omega⟩
    · obtain rfl := hf.unique hi
      exact List.mem_cons_of_mem _ (List.mem_map.mpr ⟨j, List.mem_range.mpr hj, rfl⟩)
  · intro fuel i hi hne ih
    have hreads : mallocReads table kb (fuel + 1) i =
        i :: i :: mallocReads table kb fuel (i + extents table i) := by
      rw [mallocReads, if_pos hi, if_pos hne]
      rfl
    rw [hreads]
    refine ⟨fun x hx => ?_, fun f hf j hj => ?_⟩
    · simp only [List.mem_cons] at hx
      obtain rfl | rfl | hx := hx
      · exact Or.inl hi
      · exact Or.inl hi
      · exact ih.1 x hx
    · exact List.mem_cons_of_mem _ (List.mem_cons_of_mem _ (ih.2 f hf j hj))

/-- A call that returns stays inside the table and the heap exactly when the cells from the
first vacant one on, if there is room in them, are cells of the table. -/
theorem malloc_inside_iff (table : Table) (es : List Event) (hs : size < 255 * kb1) :
    (Terminates size (run step (boot table) es).table →
        Inside size (run step (boot table) es).table) ↔
      ∀ f, FirstVacant kb4 (extents (run step (boot table) es).table) f →
        Fits size (run step (boot table) es).table f → f + cells size ≤ kb4 := by
  have hsep := (recorded_run table es).separated
  generalize (run step (boot table) es).table = t at hsep ⊢
  have hcells := toNat_kbSize hs
  constructor
  · intro hinside f hf hfits
    have hall : ∀ g, FirstVacant kb4 (extents t) g → Fits size t g :=
      fun g hg => hg.unique hf ▸ hfits
    have hreads := (hinside ((terminates_iff_fits hsep hs).mpr hall)).reads
    have hroom := fun g hg => (checkSpace_fits hs).mpr (hall g hg)
    have hlast := hreads _ ((mallocReads_scan hsep hroom).2 f hf (size / kb1) (by omega))
    simp only [cells]
    omega
  · intro hend hret
    have hall := (terminates_iff_fits hsep hs).mp hret
    have hroom := fun g hg => (checkSpace_fits hs).mpr (hall g hg)
    refine ⟨fun x hx => ?_, fun p table' hm => ?_⟩
    · obtain hx | ⟨f, hf, hx⟩ := (mallocReads_scan hsep hroom).1 x hx
      · exact hx
      · have := hend f hf (hall f hf)
        simp only [cells] at this
        omega
    · obtain hfull | ⟨f, hf⟩ := full_or_firstVacant hsep
      · rw [malloc_full hsep hfull] at hm
        cases hm
      · rw [malloc_vacant hsep hf, if_pos (hroom f hf), MallocOutcome.pointer.injEq] at hm
        have := hend f hf (hall f hf)
        obtain ⟨rfl, -⟩ := hm
        simp only [dynamicAddrStart, heapEnd, kb1, kb4] at this ⊢
        omega

theorem malloc_inside_small :
    Terminates 1000 (run step (boot fun _ => 0) [.malloc 5000]).table ∧
      Inside 1000 (run step (boot fun _ => 0) [.malloc 5000]).table := by
  have hreturns : Terminates 1000 (run step (boot fun _ => 0) [.malloc 5000]).table :=
    ⟨2, 5, by decide +kernel⟩
  exact ⟨hreturns, (malloc_inside_iff (fun _ => 0) [.malloc 5000] (by decide)).mpr
    (fun _ hf _ => hf.1) hreturns⟩

def filled : List Event := List.replicate 16 (.malloc 260096)

/-- A request for 17KB looks one entry behind the table and, if there is a 0, takes the 1KB
behind the heap. -/
theorem malloc_past_heap_end :
    Along step (fun h e => Owned h e ∧ Counted h e) (boot fun _ => 0) filled ∧
      Terminates 16384 (run step (boot fun _ => 0) filled).table ∧
      ¬ Inside 16384 (run step (boot fun _ => 0) filled).table := by
  have hsearch : mallocLoop (run step (boot fun _ => 0) filled).table (kbSize 16384) 17 0 =
        some 4080 ∧
      4096 ∈ mallocReads (run step (boot fun _ => 0) filled).table (kbSize 16384) (kb4 + 1) 0 := by
    decide +kernel
  refine ⟨?_, ⟨17, 4080, hsearch.1⟩, fun h => ?_⟩
  · have hsize : 260096 < 255 * kb1 := by decide
    simp [filled, List.replicate, Along, Owned, Counted, hsize]
  · exact absurd (h.reads 4096 hsearch.2) (by decide)

end RedstoneOS.MallocSearch
